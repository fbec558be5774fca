import MnCommon.Jparse.Progress

/-! The operations of the pull parser on the memory of a client. -/

namespace MnCommon.Jparse

open Bytes (Strz)
open Grammars (IsDigit)

/-- A variable of the client. -/
structure Place (S A : Type) where
  get : S → A
  set : A → S → S

namespace Place

variable {S A : Type}

def change (place : Place S A) (f : A → A) (s : S) : S := place.set (f (place.get s)) s

/-- All that there is. -/
def whole : Place S S := { get := id, set := fun v _ => v }

end Place

/-- A callback moves the stream by the operations of the parser only. -/
structure Callback (S : Type) where
  run : Expect S
  later : ∀ ctx s, ctx.Inside → Later ctx (run ctx s).2.1

/-- `JPS_NUMIN` and `JPS_NUM`, with the value and the sign. -/
structure IntState where
  first : Bool
  val : Int64
  sign : Int64

def intStep (st : IntState) (ch : UInt8) : Option IntState :=
  if IsDigit ch then some { st with first := false, val := st.val * 10 + Int64.ofNat (ch.toNat - 48) }
  else if st.first then
    if ch = 45 then some { st with first := false, sign := -1 }
    else if ch = 43 then some { st with first := false }
    else none
  else none

/-- The value is written whether it has been found or not. -/
def jparseExpectInt (ctx : JparseCtx) : JparseRes × JparseCtx × Option Int64 :=
  let spos := ctx.pos
  match reachNonblank ctx.begun with
  | (.ok, ctx) =>
      let (ch, st, ctx) := scanAll intStep { first := true, val := 0, sign := 1 } ctx
      let val := some (st.val * st.sign)
      if ch = none then (.expectInt 1, ctx, val)
      else if st.first then (.expectInt 1, ctx.back spos, val)
      else (.ok, ctx, val)
  | (_, ctx) => (.expectInt 1, ctx, none)

section

variable {S A B : Type}

/-- What has been read goes to a variable. -/
def storing (val : Place S A) (made : B → A) (read : JparseCtx → JparseRes × JparseCtx × Option B) : Expect S :=
  fun ctx s =>
    let (res, ctx, found) := read ctx
    (res, ctx, found.elim s fun v => val.set (made v) s)

/-- An operation on one value of the client. -/
def onValue (place : Place S A) (f : Expect A) : Expect S := fun ctx s =>
  let (res, ctx, v) := f ctx (place.get s)
  (res, ctx, place.set v s)

/-- The common body of `jparse_expect_object` and `jparse_expect_array`. -/
def expectBlock (reachStart reachStop : JparseCtx → JparseRes × JparseCtx) (code : Nat → JparseRes) (cb : Expect S) :
    Expect S := fun ctx s =>
  let spos := ctx.pos
  match reachStart ctx.begun with
  | (.ok, ctx) =>
      match cb ctx s with
      | (.ok, ctx, s) =>
          match reachStop ctx with
          | (.ok, ctx) => (.ok, ctx, s)
          | (_, ctx) => (code 2, ctx.back spos, s)
      | (res, ctx, s) => (res, ctx.back spos, s)
  | (_, ctx) => (code 1, ctx.back spos, s)

def jparseExpectObject (cb : Expect S) : Expect S := expectBlock reachOstart reachOstop .expectObject cb

def jparseExpectArray (cb : Expect S) : Expect S := expectBlock reachAstart reachAstop .expectArray cb

/-- `expectIter` with a callback that is called so many times at most. -/
def expectIterFor (fuel : Nat) (reachStart reachStop : JparseCtx → JparseRes × JparseCtx) (code : Nat → JparseRes)
    (cb : Expect S) : Expect S := fun ctx s =>
  let spos := ctx.pos
  match reachStart ctx.begun with
  | (.ok, ctx) =>
      let spos := ctx.pos
      match iterate cb fuel ctx s with
      | (.outOfFuel, ctx, s) => (.outOfFuel, ctx, s)
      | (res, ctx, s) =>
          if res = .eos ∨ spos = ctx.pos then
            match reachStop ctx with
            | (.ok, ctx) => (.ok, ctx, s)
            | (_, ctx) => (code 2, ctx.back spos, s)
          else
            (res, ctx.back spos, s)
  | (_, ctx) => (code 1, ctx.back spos, s)

theorem expectIterFor_eq (fuel : Nat) (reachStart reachStop : JparseCtx → JparseRes × JparseCtx)
    (code : Nat → JparseRes) (cb : Expect S) (ctx : JparseCtx) (s : S) :
    expectIterFor fuel reachStart reachStop code cb ctx s =
      if (reachStart ctx.begun).1 = .ok then
        loopEnd reachStop code (reachStart ctx.begun).2.pos (iterate cb fuel (reachStart ctx.begun).2 s)
      else (code 1, (reachStart ctx.begun).2.back ctx.pos, s) := by
  rw [expectIterFor]
  rcases reachStart ctx.begun with ⟨res, next⟩
  cases res with
  | ok => exact match_loopEnd reachStop code next.pos _
  | _ => rfl

theorem expectIter_for (reachStart reachStop : JparseCtx → JparseRes × JparseCtx) (code : Nat → JparseRes)
    (cb : Expect S) (ctx : JparseCtx) (s : S) :
    expectIter reachStart reachStop code cb ctx s =
      expectIterFor ((reachStart ctx.begun).2.ahead + 2) reachStart reachStop code cb ctx s := by
  rw [expectIter_eq, expectIterFor_eq]

def jparseExpectObjectIterFor (fuel : Nat) (cb : Expect S) : Expect S :=
  expectIterFor fuel reachOstart reachOstop .expectObjectIter cb

def jparseExpectArrayIterFor (fuel : Nat) (cb : Expect S) : Expect S :=
  expectIterFor fuel reachAstart reachAstop .expectArrayIter cb

/-- The ends of `jparse_expect_any`, and of `jparse_expect_ignore`. -/
def valueEnd (code : JparseRes) (start : Nat) (parsed : JparseRes × JparseCtx × S) : JparseRes × JparseCtx × S :=
  match parsed with
  | (.ok, ctx, s) => (.ok, ctx, s)
  | (.outOfFuel, ctx, s) => (.outOfFuel, ctx, s)
  | (_, ctx, s) => (code, ctx.back start, s)

theorem ignoreEnd_eq (start : Nat) (parsed : JparseRes × JparseCtx × JparseValue) :
    ignoreEnd start parsed = valueEnd (.expectIgnore 1) start parsed := by
  rcases parsed with ⟨res, ctx, jval⟩
  cases res <;> rfl

/-- The common body of `jparse_expect_ignore` and `jparse_expect_any`. -/
def expectLiteralOr (code code' : JparseRes) (jval : Place S JparseValue) (other : Expect S) : Expect S := fun ctx s =>
  match reachNonblank ctx.begun with
  | (.ok, ctx) =>
      let start := ctx.pos
      match expectMaybeNull ctx with
      | (.ok, ctx) => (.ok, ctx, jval.change (fun v => { v with ty := .null }) s)
      | (_, ctx) =>
          match jparseExpectBool ctx with
          | (.ok, ctx, b) =>
              (.ok, ctx, jval.change (fun v => { v with v := (b.map .b).getD v.v, ty := .boolean }) s)
          | (_, ctx, _) => valueEnd code' start (other ctx s)
  | (_, ctx) => (code, ctx, s)

theorem ignoreWithin_eq (depth : Nat) (ctx : JparseCtx) (jval : JparseValue) :
    ignoreWithin (depth + 1) ctx jval =
      expectLiteralOr (.expectIgnore 1) (.expectIgnore 1) .whole (ignoreOther (ignoreWithin depth)) ctx jval := by
  rw [ignoreWithin, expectLiteralOr]
  simp only [ignoreEnd_eq]
  rfl

/-- Where a value begins. -/
def valueStart (ctx : JparseCtx) : JparseCtx := (reachNonblank ctx.begun).2

def nullRead (ctx : JparseCtx) : JparseCtx := (expectMaybeNull (valueStart ctx)).2

/-- Where the value is read if it is no literal. -/
def literalsRead (ctx : JparseCtx) : JparseCtx := (jparseExpectBool (nullRead ctx)).2.1

theorem expectLiteralOr_eq (code code' : JparseRes) (jval : Place S JparseValue) (other : Expect S) (ctx : JparseCtx)
    (s : S) :
    expectLiteralOr code code' jval other ctx s =
      if (reachNonblank ctx.begun).1 = .ok then
        if (expectMaybeNull (valueStart ctx)).1 = .ok then
          (.ok, nullRead ctx, jval.change (fun v => { v with ty := .null }) s)
        else if (jparseExpectBool (nullRead ctx)).1 = .ok then
          (.ok, literalsRead ctx,
            jval.change (fun v => { v with v := ((jparseExpectBool (nullRead ctx)).2.2.map .b).getD v.v, ty := .boolean }) s)
        else valueEnd code' (valueStart ctx).pos (other (literalsRead ctx) s)
      else (code, valueStart ctx, s) := by
  rw [expectLiteralOr, literalsRead, nullRead, valueStart]
  split
  · next start reached =>
      rw [reached, if_pos rfl]
      dsimp only
      split
      · next null => rw [null, if_pos rfl]
      · next other null =>
          rw [null, if_neg other]
          dsimp only
          split
          · next bool => rw [bool, if_pos rfl]
          · next other bool => rw [bool, if_neg other]
  · next other reached => rw [reached, if_neg other]

def anyObject (cb : Expect S) (jval : Place S JparseValue) : Expect S := fun ctx s =>
  jparseExpectObject cb ctx (jval.change (fun v => { v with ty := .object }) s)

def anyArray (cb : Expect S) (jval : Place S JparseValue) : Expect S := fun ctx s =>
  jparseExpectArray cb ctx (jval.change (fun v => { v with ty := .array }) s)

/-- The values that are no literals. -/
def anyOther (cb : Expect S) (jval : Place S JparseValue) : Expect S :=
  whether probeDquote (onValue jval ignoreStr)
    (whether probeOstart (anyObject cb jval) (whether probeAstart (anyArray cb jval) (onValue jval ignoreFloat)))

/-- `jparse_expect_any`, with the callback that the value has. -/
def jparseExpectAny (cb : Expect S) (jval : Place S JparseValue) : Expect S :=
  expectLiteralOr (.expectAny 1) (.expectAny 2) jval (anyOther cb jval)

/-- The body of the functions for an item. -/
def expectItem (value : Expect S) : Expect S := fun ctx s => expectValue (goingBack ctx.pos value) ctx.begun s

/-- The body of the functions for a key with a value. There is a key that is wanted, or any
will do; `found` is what is done once the key has been read. -/
def expectPair (wanted : Option Strz) (code : Nat → JparseRes) (setKey : Strz → S → S) (found : S → S)
    (value : Expect S) : Expect S := fun ctx s =>
  match jparseExpectStr ctx.begun with
  | (.ok, ctx, key) =>
      let s := found (key.elim s fun key => setKey key s)
      if wanted = none ∨ key = wanted then
        match reachColon ctx with
        | (.ok, ctx) => expectValue value ctx s
        | (_, ctx) => (code (if wanted = none then 2 else 3), ctx, s)
      else (code 2, ctx, s)
  | (_, ctx, key) => (code 1, ctx, key.elim s fun key => setKey key s)

theorem expectAnykvp_eq (code : Nat → JparseRes) (setKey : Strz → S → S) (value : Expect S) :
    expectAnykvp code setKey value = expectPair none code setKey id value := rfl

def Place.k (jval : Place S JparseValue) : Place S (Option Strz) where
  get s := (jval.get s).k
  set k s := jval.change (fun v => { v with k := k }) s

def keep (key : Place S (Option Strz)) (k : Strz) (s : S) : S := key.set (some k) s

/-- A key that goes to a variable of the function. -/
def forget (_ : Strz) (s : S) : S := s

def nameValue (key : Place S (Option Strz)) (jval : Place S JparseValue) (s : S) : S := jval.k.set (key.get s) s

def prepared (change : S → S) (value : Expect S) : Expect S := fun ctx s => value ctx (change s)

/-- `bytes_new_from_str_mpool`. -/
def bytesNewFromStr (s : List UInt8) : Strz := ⟨s.takeWhile fun ch => ch ≠ 0⟩

/-- The functions that make a string of the key first. -/
def expectSkvp (kvp : Strz → Expect S) (key : List UInt8) : Expect S := fun ctx s => kvp (bytesNewFromStr key) ctx.begun s

/-- Where the key has been read, and the colon. -/
def keyRead (ctx : JparseCtx) : JparseCtx := (jparseExpectStr ctx.begun).2.1

def colonRead (ctx : JparseCtx) : JparseCtx := (reachColon (keyRead ctx)).2

/-- Where the value of a pair is read. -/
def pairValue (ctx : JparseCtx) : JparseCtx := (expectMaybeNull (colonRead ctx)).2

/-- The key is the one that is wanted, and a value other than null is to come. -/
structure ReachesValue (wanted : Option Strz) (ctx : JparseCtx) : Prop where
  key : (jparseExpectStr ctx.begun).1 = .ok
  named : wanted = none ∨ (jparseExpectStr ctx.begun).2.2 = wanted
  colon : (reachColon (keyRead ctx)).1 = .ok
  value : (expectMaybeNull (colonRead ctx)).1 ≠ .ok

/-- The memory of the client once the key has been read. -/
def keyKept (setKey : Strz → S → S) (ctx : JparseCtx) (s : S) : S :=
  (jparseExpectStr ctx.begun).2.2.elim s fun key => setKey key s

theorem expectPair_eq (wanted : Option Strz) (code : Nat → JparseRes) (setKey : Strz → S → S) (found : S → S)
    (value : Expect S) (ctx : JparseCtx) (s : S) :
    expectPair wanted code setKey found value ctx s =
      if (jparseExpectStr ctx.begun).1 = .ok then
        if wanted = none ∨ (jparseExpectStr ctx.begun).2.2 = wanted then
          if (reachColon (keyRead ctx)).1 = .ok then
            expectValue value (colonRead ctx) (found (keyKept setKey ctx s))
          else (code (if wanted = none then 2 else 3), colonRead ctx, found (keyKept setKey ctx s))
        else (code 2, keyRead ctx, found (keyKept setKey ctx s))
      else (code 1, keyRead ctx, keyKept setKey ctx s) := by
  rw [expectPair, colonRead, keyRead, keyKept]
  rcases jparseExpectStr ctx.begun with ⟨res, next, key⟩
  cases res with
  | ok =>
      dsimp only
      rcases reachColon next with ⟨res', mid⟩
      cases res' <;> rfl
  | _ => rfl

end

/-- What may be expected, with the variables that it goes to. -/
inductive Value (S : Type) where
  | any (cb : Callback S) (jval : Place S JparseValue)
  | int (val : Place S Int64)
  | float (val : Place S (List UInt8))
  | str (val : Place S (Option Strz))
  | bool (val : Place S Bool)
  | object (cb : Callback S) (jval : Place S JparseValue)
  | objectIter (cb : Callback S) (jval : Place S JparseValue)
  | array (cb : Callback S) (jval : Place S JparseValue)
  | arrayIter (cb : Callback S) (jval : Place S JparseValue)

section

variable {S : Type} (fuel : Nat) (cb : Expect S) (wanted : Strz) (key : Place S (Option Strz)) (jval : Place S JparseValue)
  (int : Place S Int64) (float : Place S (List UInt8)) (str : Place S (Option Strz)) (bool : Place S Bool)

def expectInt : Expect S := storing int id jparseExpectInt

def expectFloat : Expect S := storing float id jparseExpectFloat

def expectStr : Expect S := storing str some jparseExpectStr

def expectBool : Expect S := storing bool id jparseExpectBool

def expectIgnore : Expect S := onValue jval jparseExpectIgnore

def jparseExpectKvpAny : Expect S := expectPair (some wanted) .expectKvpAny forget id (jparseExpectAny cb jval)

def jparseExpectKvpInt : Expect S := expectPair (some wanted) .expectKvpInt forget id (expectInt int)

def jparseExpectKvpFloat : Expect S := expectPair (some wanted) .expectKvpFloat forget id (expectFloat float)

def jparseExpectKvpStr : Expect S := expectPair (some wanted) .expectKvpStr forget id (expectStr str)

def jparseExpectKvpBool : Expect S := expectPair (some wanted) .expectKvpBool forget id (expectBool bool)

/-- The key stays with the value. -/
def jparseExpectKvpObject : Expect S :=
  expectPair (some wanted) .expectKvpObject (keep jval.k) id (jparseExpectObject cb)

def jparseExpectKvpObjectIter : Expect S :=
  expectPair (some wanted) .expectKvpObjectIter (keep jval.k) id (jparseExpectObjectIterFor fuel cb)

def jparseExpectKvpArray : Expect S := expectPair (some wanted) .expectKvpArray forget id (jparseExpectArray cb)

def jparseExpectKvpArrayIter : Expect S :=
  expectPair (some wanted) .expectKvpArrayIter forget id (jparseExpectArrayIterFor fuel cb)

def jparseExpectSkvpAny (key : List UInt8) : Expect S := expectSkvp (fun key => jparseExpectKvpAny cb key jval) key

def jparseExpectSkvpInt (key : List UInt8) : Expect S := expectSkvp (fun key => jparseExpectKvpInt key int) key

def jparseExpectSkvpFloat (key : List UInt8) : Expect S := expectSkvp (fun key => jparseExpectKvpFloat key float) key

def jparseExpectSkvpStr (key : List UInt8) : Expect S := expectSkvp (fun key => jparseExpectKvpStr key str) key

def jparseExpectSkvpBool (key : List UInt8) : Expect S := expectSkvp (fun key => jparseExpectKvpBool key bool) key

def jparseExpectSkvpObject (key : List UInt8) : Expect S := expectSkvp (fun key => jparseExpectKvpObject cb key jval) key

def jparseExpectSkvpArray (key : List UInt8) : Expect S := expectSkvp (fun key => jparseExpectKvpArray cb key) key

def jparseExpectAnykvpIgnoreAt : Expect S :=
  expectPair none .expectAnykvpIgnore (keep key) (nameValue key jval) (expectIgnore jval)

def jparseExpectAnykvpAny : Expect S :=
  expectPair none .expectAnykvpAny (keep key) (nameValue key jval) (jparseExpectAny cb jval)

def jparseExpectAnykvpInt : Expect S := expectPair none .expectAnykvpInt (keep key) id (expectInt int)

def jparseExpectAnykvpFloat : Expect S := expectPair none .expectAnykvpFloat (keep key) id (expectFloat float)

def jparseExpectAnykvpStrAt : Expect S := expectPair none .expectAnykvpStr (keep key) id (expectStr str)

def jparseExpectAnykvpBool : Expect S := expectPair none .expectAnykvpBool (keep key) id (expectBool bool)

/-- The value gets the key if it is not null. -/
def jparseExpectAnykvpObject : Expect S :=
  expectPair none .expectAnykvpObject (keep key) id (prepared (nameValue key jval) (jparseExpectObject cb))

def jparseExpectAnykvpObjectIter : Expect S :=
  expectPair none .expectAnykvpObjectIter (keep key) id
    (prepared (nameValue key jval) (jparseExpectObjectIterFor fuel cb))

def jparseExpectAnykvpArray : Expect S :=
  expectPair none .expectAnykvpArray (keep key) id (prepared (nameValue key jval) (jparseExpectArray cb))

def jparseExpectAnykvpArrayIter : Expect S :=
  expectPair none .expectAnykvpArrayIter (keep key) id
    (prepared (nameValue key jval) (jparseExpectArrayIterFor fuel cb))

def jparseExpectItemIgnoreAt : Expect S := expectItem (expectIgnore jval)

def jparseExpectItemAny : Expect S := expectItem (jparseExpectAny cb jval)

def jparseExpectItemInt : Expect S := expectItem (expectInt int)

def jparseExpectItemFloat : Expect S := expectItem (expectFloat float)

def jparseExpectItemStr : Expect S := expectItem (expectStr str)

def jparseExpectItemBool : Expect S := expectItem (expectBool bool)

def jparseExpectItemObject : Expect S := expectItem (jparseExpectObject cb)

def jparseExpectItemObjectIter : Expect S := expectItem (jparseExpectObjectIterFor fuel cb)

def jparseExpectItemArray : Expect S := expectItem (jparseExpectArray cb)

def jparseExpectItemArrayIter : Expect S := expectItem (jparseExpectArrayIterFor fuel cb)

end

theorem jparseExpectItemIgnore_eq :
    jparseExpectItemIgnore jparseExpectIgnore = jparseExpectItemIgnoreAt .whole := rfl

theorem jparseExpectAnykvpIgnore_eq :
    jparseExpectAnykvpIgnore jparseExpectIgnore = jparseExpectAnykvpIgnoreAt (Place.k .whole) .whole := by
  funext ctx jval
  rw [jparseExpectAnykvpIgnore, expectAnykvp_eq, jparseExpectAnykvpIgnoreAt, expectPair, expectPair]
  rcases jparseExpectStr ctx.begun with ⟨res, next, key⟩
  cases key <;> rfl

theorem jparseExpectAnykvpStr_eq :
    jparseExpectAnykvpStr = jparseExpectAnykvpStrAt { get := StrPair.key, set := fun key pair => { pair with key := key } }
      { get := StrPair.val, set := fun val pair => { pair with val := val } } := by
  have value : (fun ctx (pair : StrPair) =>
        ((jparseExpectStr ctx).1, (jparseExpectStr ctx).2.1, { pair with val := (jparseExpectStr ctx).2.2.or pair.val })) =
      expectStr { get := StrPair.val, set := fun val pair => { pair with val := val } } := by
    funext ctx pair
    rw [expectStr, storing]
    rcases jparseExpectStr ctx with ⟨res, next, val⟩
    cases val <;> rfl
  rw [jparseExpectAnykvpStr, expectAnykvp_eq, jparseExpectAnykvpStrAt, ← value]
  rfl

namespace Value

variable {S : Type} (fuel : Nat) (wanted : Strz) (key : Place S (Option Strz))

def run : Value S → Expect S
  | any cb jval => jparseExpectAny cb.run jval
  | int val => expectInt val
  | float val => expectFloat val
  | str val => expectStr val
  | bool val => expectBool val
  | object cb _ => jparseExpectObject cb.run
  | objectIter cb _ => jparseExpectObjectIterFor fuel cb.run
  | array cb _ => jparseExpectArray cb.run
  | arrayIter cb _ => jparseExpectArrayIterFor fuel cb.run

def kvp : Value S → Expect S
  | any cb jval => jparseExpectKvpAny cb.run wanted jval
  | int val => jparseExpectKvpInt wanted val
  | float val => jparseExpectKvpFloat wanted val
  | str val => jparseExpectKvpStr wanted val
  | bool val => jparseExpectKvpBool wanted val
  | object cb jval => jparseExpectKvpObject cb.run wanted jval
  | objectIter cb jval => jparseExpectKvpObjectIter fuel cb.run wanted jval
  | array cb _ => jparseExpectKvpArray cb.run wanted
  | arrayIter cb _ => jparseExpectKvpArrayIter fuel cb.run wanted

/-- Whether the callback is called again and again. There are no functions with a key of
characters for these. -/
def iterates : Value S → Bool
  | objectIter _ _ => true
  | arrayIter _ _ => true
  | _ => false

def skvp (key : List UInt8) : (v : Value S) → v.iterates = false → Expect S
  | any cb jval, _ => jparseExpectSkvpAny cb.run jval key
  | int val, _ => jparseExpectSkvpInt val key
  | float val, _ => jparseExpectSkvpFloat val key
  | str val, _ => jparseExpectSkvpStr val key
  | bool val, _ => jparseExpectSkvpBool val key
  | object cb jval, _ => jparseExpectSkvpObject cb.run jval key
  | array cb _, _ => jparseExpectSkvpArray cb.run key

def anykvp : Value S → Expect S
  | any cb jval => jparseExpectAnykvpAny cb.run key jval
  | int val => jparseExpectAnykvpInt key val
  | float val => jparseExpectAnykvpFloat key val
  | str val => jparseExpectAnykvpStrAt key val
  | bool val => jparseExpectAnykvpBool key val
  | object cb jval => jparseExpectAnykvpObject cb.run key jval
  | objectIter cb jval => jparseExpectAnykvpObjectIter fuel cb.run key jval
  | array cb jval => jparseExpectAnykvpArray cb.run key jval
  | arrayIter cb jval => jparseExpectAnykvpArrayIter fuel cb.run key jval

def item : Value S → Expect S
  | any cb jval => jparseExpectItemAny cb.run jval
  | int val => jparseExpectItemInt val
  | float val => jparseExpectItemFloat val
  | str val => jparseExpectItemStr val
  | bool val => jparseExpectItemBool val
  | object cb _ => jparseExpectItemObject cb.run
  | objectIter cb _ => jparseExpectItemObjectIter fuel cb.run
  | array cb _ => jparseExpectItemArray cb.run
  | arrayIter cb _ => jparseExpectItemArrayIter fuel cb.run

/-! The functions of a family differ in these. -/

def kvpCode : Value S → Nat → JparseRes
  | any _ _ => .expectKvpAny
  | int _ => .expectKvpInt
  | float _ => .expectKvpFloat
  | str _ => .expectKvpStr
  | bool _ => .expectKvpBool
  | object _ _ => .expectKvpObject
  | objectIter _ _ => .expectKvpObjectIter
  | array _ _ => .expectKvpArray
  | arrayIter _ _ => .expectKvpArrayIter

def kvpKey : Value S → Strz → S → S
  | object _ jval => keep jval.k
  | objectIter _ jval => keep jval.k
  | _ => forget

def anykvpCode : Value S → Nat → JparseRes
  | any _ _ => .expectAnykvpAny
  | int _ => .expectAnykvpInt
  | float _ => .expectAnykvpFloat
  | str _ => .expectAnykvpStr
  | bool _ => .expectAnykvpBool
  | object _ _ => .expectAnykvpObject
  | objectIter _ _ => .expectAnykvpObjectIter
  | array _ _ => .expectAnykvpArray
  | arrayIter _ _ => .expectAnykvpArrayIter

/-- When the value gets its key. -/
def keyFound : Value S → S → S
  | any _ jval => nameValue key jval
  | _ => id

def keyGiven : Value S → S → S
  | object _ jval => nameValue key jval
  | objectIter _ jval => nameValue key jval
  | array _ jval => nameValue key jval
  | arrayIter _ jval => nameValue key jval
  | _ => id

theorem kvp_eq (v : Value S) :
    v.kvp fuel wanted = expectPair (some wanted) v.kvpCode v.kvpKey id (v.run fuel) := by
  cases v <;> rfl

theorem skvp_eq (v : Value S) (once : v.iterates = false) (key : List UInt8) :
    v.skvp key once = expectSkvp (fun wanted => v.kvp fuel wanted) key := by
  cases v with
  | objectIter cb jval => cases once
  | arrayIter cb jval => cases once
  | _ => rfl

theorem anykvp_eq (v : Value S) :
    v.anykvp fuel key =
      expectPair none v.anykvpCode (keep key) (v.keyFound key) (prepared (v.keyGiven key) (v.run fuel)) := by
  cases v <;> rfl

theorem item_eq (v : Value S) : v.item fuel = expectItem (v.run fuel) := by
  cases v <;> rfl

end Value

/-- The operations of the parser. -/
inductive JparseOp (S : Type) where
  | tok (val : Place S (Option Strz))
  | ignore (jval : Place S JparseValue)
  | itemIgnore (jval : Place S JparseValue)
  | anykvpIgnore (key : Place S (Option Strz)) (jval : Place S JparseValue)
  | expect (v : Value S)
  | item (v : Value S)
  | kvp (wanted : Strz) (v : Value S)
  | skvp (key : List UInt8) (v : Value S) (once : v.iterates = false)
  | anykvp (key : Place S (Option Strz)) (v : Value S)

/-- An operation whose callback is called no more often than the fuel says. -/
def JparseOp.run {S : Type} (fuel : Nat) : JparseOp S → Expect S
  | .tok val => storing val some jparseExpectTok
  | .ignore jval => expectIgnore jval
  | .itemIgnore jval => jparseExpectItemIgnoreAt jval
  | .anykvpIgnore key jval => jparseExpectAnykvpIgnoreAt key jval
  | .expect v => v.run fuel
  | .item v => v.item fuel
  | .kvp wanted v => v.kvp fuel wanted
  | .skvp key v once => v.skvp key once
  | .anykvp key v => v.anykvp fuel key

end MnCommon.Jparse
