import MnCommon.JsonParser.Machine

/-! How the text alone tells which callbacks are made. -/

namespace MnCommon.JsonParser

open Grammars (IsDigit IsLetter Closed)

/-- What the code does next, as the text and the loops tell. -/
inductive Look where
  | finished
  | lapse
  | pass (st : JsonState)
  | key (body : List UInt8)
  | string (body : List UInt8)
  | number (chars : List UInt8)
  | token (chars : List UInt8)
  | enter (k : Container)
  | leave
  | cut
  | reject (res : Failure)
  deriving DecidableEq

/-- The inside of a string that has begun, if it ends. -/
def stringBody : List UInt8 → Option (List UInt8)
  | [] => none
  | 92 :: [] => none
  | 92 :: d :: cs => (stringBody cs).map fun body => 92 :: d :: body
  | c :: cs => if c = 34 then some [] else (stringBody cs).map fun body => c :: body

/-- A number or a token goes as far as its characters do, and ends if another follows. -/
def wordOf (P : UInt8 → Prop) [DecidablePred P] (cs : List UInt8) : Option (List UInt8) :=
  if cs.all fun c => P c then none else some (cs.takeWhile fun c => P c)

def lookValue (ch : UInt8) (cs : List UInt8) : Opening → Look
  | .object => .enter .object
  | .array => .enter .array
  | .string => ((stringBody cs).map Look.string).getD .cut
  | .number => ((wordOf NumChar cs).map fun word => Look.number (ch :: word)).getD .cut
  | .token => ((wordOf TokChar cs).map fun word => Look.token (ch :: word)).getD .cut

def lookSpace (st : JsonState) (ch : UInt8) (res : Failure) : Look :=
  if jsnIsSpace ch then .pass st else .reject res

def lookKey (cs : List UInt8) : Look := ((stringBody cs).map Look.key).getD .cut

def lookObject (st : JsonState) (ch : UInt8) (cs : List UInt8) : Look :=
  match st with
  | .ostart => if ch = 125 then .leave else if ch = 34 then lookKey cs else lookSpace st ch (.obj 1)
  | .keyOut => if ch = 58 then .pass .eValue else lookSpace st ch (.obj 2)
  | .eValue =>
      match opening ch with
      | some first => lookValue ch cs first
      | none => lookSpace st ch (.obj 4)
  | .eNext => if ch = 34 then lookKey cs else lookSpace st ch (.obj 6)
  | st =>
      if st.isOut then
        if ch = 44 then .pass .eNext else if ch = 125 then .leave else lookSpace st ch (.obj 5)
      else
        .reject (.obj 7)

def lookArray (st : JsonState) (ch : UInt8) (cs : List UInt8) : Look :=
  match st with
  | .astart | .eNext =>
      if ch = 93 then .leave
      else
        match opening ch with
        | some first => lookValue ch cs first
        | none => lookSpace st ch (.array 11)
  | st =>
      if st.isOut then
        if ch = 44 then .pass .eNext else if ch = 93 then .leave else lookSpace st ch (.array 13)
      else
        .reject (.array 14)

def lookTop (st : JsonState) (ch : UInt8) : Look :=
  if st = .start ∧ ch = 123 then .enter .object
  else if st = .start ∧ ch = 91 then .enter .array
  else .pass st

/-- A NUL ends a loop, and the loop around it goes on behind it. -/
def look (loops : List Container) (st : JsonState) : List UInt8 → Look
  | [] => .finished
  | ch :: cs =>
      match loops with
      | [] => if ch = 0 then .finished else lookTop st ch
      | .object :: _ => if ch = 0 then .lapse else lookObject st ch cs
      | .array :: _ => if ch = 0 then .lapse else lookArray st ch cs

def Look.Goes : Look → Prop
  | .finished | .cut | .reject _ => False
  | _ => True

instance (l : Look) : Decidable l.Goes := by
  cases l <;> first | exact isTrue trivial | exact isFalse id

def Container.begun : Container → JsonState
  | .object => .ostart
  | .array => .astart

def Container.ended : Container → JsonState
  | .object => .ostop
  | .array => .astop

def Container.type : Container → JsonType
  | .object => .object
  | .array => .array

def Look.loops (loops : List Container) : Look → List Container
  | .enter k => k :: loops
  | .leave | .lapse => loops.tail
  | _ => loops

/-- The containers of which the client knows that they are open. -/
def Look.opened (opened : List Container) : Look → List Container
  | .enter k => k :: opened
  | .leave => opened.tail
  | _ => opened

def endedState : List Container → JsonState → JsonState
  | [], st => st
  | k :: _, _ => k.ended

def Look.state (loops : List Container) (st : JsonState) : Look → JsonState
  | .pass st => st
  | .key _ => .keyOut
  | .string _ => .strOut
  | .number _ => .numOut
  | .token _ => .tokOut
  | .enter k => k.begun
  | .leave => endedState loops st
  | _ => st

/-- How many characters it passes. -/
def Look.width : Look → Nat
  | .key body | .string body => body.length + 2
  | .number chars | .token chars => chars.length
  | _ => 1

/-- A place where the code makes a call: the callback, the one of which it passes the user
data, and the number of the result of an array that stands for that of the callback. -/
structure Notice where
  callback : JsonCallback
  data : JsonCallback
  code : Option Nat
  deriving DecidableEq

def slotNotice (n : Nat) : List Container → Notice
  | .array :: _ => ⟨.item, .item, some n⟩
  | .object :: _ => ⟨.value, .value, none⟩
  | [] => ⟨.item, .item, none⟩

def startNotice (callback : JsonCallback) (n : Nat) : List Container → Notice
  | .array :: _ => ⟨callback, callback, some n⟩
  | _ => ⟨callback, callback, none⟩

def Look.notices (loops : List Container) (st : JsonState) : Look → List Notice
  | .key _ => [⟨.key, .key, none⟩]
  | .string _ => [slotNotice 7 loops]
  | .number _ => [slotNotice 9 loops]
  | .token _ => [slotNotice 10 loops]
  | .enter .object =>
      -- the object of the text goes to `value_cb` with the data of `item_cb`
      [startNotice .ostart 5 loops, if loops = [] then ⟨.value, .item, none⟩ else slotNotice 6 loops]
  | .enter .array => [startNotice .astart 2 loops, slotNotice 3 loops]
  | .leave =>
      match loops with
      | .object :: _ => [⟨.ostop, .ostop, none⟩]
      | .array :: _ => [⟨.astop, .astop, some (if st.isOut then 12 else 1)⟩]
      | [] => []
  | _ => []

def endedType : List Container → JsonType
  | [] => .undef
  | k :: _ => k.type

/-- What a callback finds. -/
def Look.event (loops : List Container) (nest : Int) (callback : JsonCallback) : Look → Event
  | .key body | .string body => ⟨callback, .string, nest + 1, .text body⟩
  | .number chars => numberEvent callback (nest + 1) chars
  | .token chars => tokenEvent callback (nest + 1) chars
  | .enter k => ⟨callback, k.type, nest + 1, .none⟩
  | _ => ⟨callback, endedType loops, nest, .none⟩

structure Site where
  loops : List Container
  notice : Notice
  event : Event
  deriving DecidableEq

/-- A reader of the text, with the containers that are open, the loops that are running and
what is left. -/
structure Reader where
  opened : List Container
  loops : List Container
  st : JsonState
  rest : List UInt8
  deriving DecidableEq

namespace Reader

def start (text : List UInt8) : Reader := ⟨[], [], .start, text⟩

def nest (r : Reader) : Int := r.opened.length - 1

def look (r : Reader) : Look := JsonParser.look r.loops r.st r.rest

def after (r : Reader) : Reader where
  opened := r.look.opened r.opened
  loops := r.look.loops r.loops
  st := r.look.state r.loops r.st
  rest := r.rest.drop r.look.width

def sites (r : Reader) : List Site :=
  (r.look.notices r.loops r.st).map fun n => ⟨r.loops, n, r.look.event r.loops r.nest n.callback⟩

/-- The calls on the way through the text, if they all return 0. -/
def calls : Nat → Reader → List Site
  | 0, _ => []
  | fuel + 1, r => if r.look.Goes then r.sites ++ calls fuel r.after else []

/-- Where the reader stops. -/
def last : Nat → Reader → Reader
  | 0, r => r
  | fuel + 1, r => if r.look.Goes then last fuel r.after else r

end Reader

def callSites (text : List UInt8) : List Site := (Reader.start text).calls (text.length + 1)

def lastReader (text : List UInt8) : Reader := (Reader.start text).last (text.length + 1)

example : (callSites [123, 34, 107, 34, 58, 91, 55, 93, 125]).map (fun s => s.event.callback) =
    [.ostart, .value, .key, .astart, .value, .item, .astop, .ostop] := by decide

end MnCommon.JsonParser
