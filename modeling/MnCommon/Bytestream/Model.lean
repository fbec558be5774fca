import Mathlib.Data.List.Basic
import MnCommon.Memory.Heap

/-! The byte streams of `bytestream.c` and the line reader of `bytestream_aux.c`.
A write outside of the buffer is a fault. -/

namespace MnCommon.Bytestream

open Memory (Fault)

/-- A number that has gone through `size_t`, back as an `ssize_t` or `off_t`. -/
def toSigned (n : Int) : Int := n.bmod (2 ^ 64)

def toSize (n : Int) : Nat := (n % 2 ^ 64).toNat

/-- `data` is the memory behind the buffer, `sz` its size as the stream knows it. -/
structure MnByteStream where
  data : List UInt8
  sz : Int
  growsz : Int
  eod : Int
  pos : Int
  deriving DecidableEq, Repr

/-- The C library and the operating system; an answer may depend on everything
that has happened so far. No answer of `read` and `recv` stands for an error,
and so does no answer of `write` and `send`. -/
structure System (E : Type) where
  pagesize : Nat
  pagesize_pos : 0 < pagesize
  realloc : Nat → E → Bool × E
  junk : E → Nat → UInt8
  read : Nat → E → Option (List UInt8) × E
  recv : Nat → E → Option (List UInt8) × E
  write : List UInt8 → Nat → E → Option Nat × E
  send : List UInt8 → Nat → E → Option Nat × E

/-- Of the page size there is on most systems. -/
theorem page_pos : 0 < 4096 := by decide

structure World (E : Type) where
  stream : MnByteStream
  env : E

/-- What formatting a string gives; its length is an `int`. -/
structure Text where
  chars : List UInt8
  short : chars.length < 2 ^ 31

/-- Bytes in memory; no object is larger than `PTRDIFF_MAX`. -/
structure Piece where
  bytes : List UInt8
  short : bytes.length < 2 ^ 63

abbrev Answer (E : Type) := Int × World E

variable {E A : Type} (sys : System E)

/-- The bytes from `start` to `stop`. -/
def slice (data : List UInt8) (start stop : Int) : List UInt8 :=
  (data.take stop.toNat).drop start.toNat

def splice (data : List UInt8) (start : Nat) (bytes : List UInt8) : List UInt8 :=
  data.take start ++ (bytes ++ data.drop (start + bytes.length))

def resize (junk : Nat → UInt8) (size : Nat) (data : List UInt8) : List UInt8 :=
  data.take size ++ (List.range (size - data.length)).map junk

def poke (start : Int) (bytes : List UInt8) (w : World E) : Except Fault (World E) :=
  if bytes = [] then
    .ok w
  else if 0 ≤ start ∧ start.toNat + bytes.length ≤ w.stream.data.length then
    .ok { w with stream := { w.stream with data := splice w.stream.data start.toNat bytes } }
  else
    .error .dangling

def peek (start : Int) (s : MnByteStream) : Except Fault UInt8 :=
  match s.data[start.toNat]? with
  | some ch => if 0 ≤ start then .ok ch else .error .dangling
  | none => .error .dangling

/-- No memory is larger than `PTRDIFF_MAX`. -/
def allocate (size : Nat) (env : E) : Bool × E :=
  let (there, next) := sys.realloc size env
  (decide (size < 2 ^ 63) && there, next)

def bytestreamInit (growsz : Int) (env : E) : Bool × World E :=
  let s : MnByteStream := { data := [], sz := growsz, growsz := growsz, eod := 0, pos := 0 }
  if 0 < growsz then
    let (there, next) := allocate sys growsz.toNat env
    if there then
      (true, ⟨{ s with data := (List.range growsz.toNat).map (sys.junk env) }, next⟩)
    else
      (false, ⟨s, next⟩)
  else
    (true, ⟨s, env⟩)

/-- `sz` is the length of the bytes of the client. -/
def bytestreamInitData (data : Piece) (growsz : Int) (env : E) : World E :=
  ⟨{ data := data.bytes
     sz := data.bytes.length
     growsz := growsz
     eod := data.bytes.length
     pos := 0 }, env⟩

def bytestreamGrow (incr : Nat) (w : World E) : Bool × World E :=
  let size := toSize (w.stream.sz + incr)
  let (there, env) := allocate sys size w.env
  if there then
    (true, ⟨{ w.stream with
      data := resize (sys.junk w.env) size w.stream.data
      sz := toSigned (w.stream.sz + incr) }, env⟩)
  else
    (false, ⟨w.stream, env⟩)

/-- The first lines of every function that adds to the stream. -/
def makeRoom (amount : Int) (w : World E) : Bool × World E :=
  let need := toSigned (w.stream.eod + amount - w.stream.sz)
  if 0 < need then bytestreamGrow sys (toSize (max need w.stream.growsz)) w else (true, w)

/-- `bytestream_read_more` and `bytestream_recv_more`, which differ in the call
only. -/
def transferIn (call : Nat → E → Option (List UInt8) × E) (sz : Int) (w : World E) :
    Except Fault (Answer E) :=
  match makeRoom sys sz w with
  | (false, w) => .ok (-1, w)
  | (true, w) =>
      match call (toSize sz) w.env with
      | (none, env) => .ok (-1, ⟨w.stream, env⟩)
      | (some bytes, env) => do
          let nread := bytes.take (toSize sz)
          let w ← poke w.stream.eod nread ⟨w.stream, env⟩
          return (nread.length, { w with stream := { w.stream with eod := w.stream.eod + nread.length } })

def bytestreamReadMore (sz : Int) (w : World E) : Except Fault (Answer E) := transferIn sys sys.read sz w

def bytestreamRecvMore (sz : Int) (w : World E) : Except Fault (Answer E) := transferIn sys sys.recv sz w

/-- The bytes that `write` and `send` are pointed at, as far as there are any. -/
def outgoing (s : MnByteStream) (sz : Nat) : List UInt8 := (s.data.drop s.pos.toNat).take sz

def bytestreamWrite (sz : Nat) (w : World E) : Int × World E :=
  if w.stream.pos + toSigned sz > w.stream.eod then
    (-1, w)
  else
    match sys.write (outgoing w.stream sz) sz w.env with
    | (none, env) => (-1, ⟨w.stream, env⟩)
    | (some n, env) =>
        let nwritten : Int := min n sz
        (nwritten, ⟨{ w.stream with pos := w.stream.pos + nwritten }, env⟩)

/-- Writes a line end too, whatever happens. -/
def bytestreamStderrWrite (sz : Nat) (w : World E) : Int × World E :=
  if w.stream.pos + toSigned sz > w.stream.eod then
    (-1, w)
  else
    let (nwritten, w) := bytestreamWrite sys sz w
    (nwritten, { w with env := (sys.write [10] 1 w.env).2 })

/-- The position moves by the answer of `send`, also when this is -1. -/
def bytestreamSend (sz : Nat) (w : World E) : Int × World E :=
  if w.stream.pos + toSigned sz > w.stream.eod then
    (-1, w)
  else
    match sys.send (outgoing w.stream sz) sz w.env with
    | (none, env) => (-1, ⟨{ w.stream with pos := w.stream.pos + -1 }, env⟩)
    | (some n, env) =>
        let nwritten : Int := min n sz
        (nwritten, ⟨{ w.stream with pos := w.stream.pos + nwritten }, env⟩)

inductive Consumed where
  | ready
  | eof
  | failed
  deriving DecidableEq, Repr

/-- `readMore` is the function that the client has put into the stream. -/
def bytestreamConsumeData (readMore : Int → World E → Except Fault (Answer E)) (w : World E) :
    Except Fault (Consumed × World E) := do
  let need := w.stream.pos + w.stream.growsz - w.stream.eod
  let (nread, w) ← readMore (if need ≤ 0 then w.stream.growsz else need) w
  if nread = 0 then
    return (.eof, w)
  else if nread < 0 then
    return (.failed, w)
  else
    return (.ready, w)

def NPRINTF_ERROR : Int := -129

def NPRINTF_NEEDMORE : Int := -130

def CAT_ERROR : Int := -127

/-- `vsnprintf` with the room `sz`; without a text it reports an error. -/
def vsnprintf (start : Int) (sz : Nat) (text : Option Text) (w : World E) : Except Fault (Answer E) :=
  match text with
  | none => .ok (-1, w)
  | some text => do
      let w ← poke start (if sz = 0 then [] else text.chars.take (sz - 1) ++ [0]) w
      return (text.chars.length, w)

/-- The common body of `bytestream_nprintf` and `bytestream_vnprintf`. -/
def appendFormatted (sz : Nat) (text : Option Text) (w : World E) : Except Fault (Answer E) :=
  match makeRoom sys sz w with
  | (false, w) => .ok (NPRINTF_ERROR, w)
  | (true, w) => do
      let (nused, w) ← vsnprintf w.stream.eod sz text w
      if toSigned sz ≤ nused then
        return (NPRINTF_NEEDMORE, w)
      else
        return (nused, { w with stream := { w.stream with eod := w.stream.eod + nused } })

def bytestreamNprintf (sz : Nat) (text : Option Text) (w : World E) : Except Fault (Answer E) :=
  appendFormatted sys sz text w

def bytestreamVnprintf (sz : Nat) (text : Option Text) (w : World E) : Except Fault (Answer E) :=
  appendFormatted sys sz text w

/-- The number of bytes is returned as an `int`. -/
def bytestreamCat (piece : Piece) (w : World E) : Except Fault (Answer E) :=
  match makeRoom sys piece.bytes.length w with
  | (false, w) => .ok (CAT_ERROR, w)
  | (true, w) => do
      let w ← poke w.stream.eod piece.bytes w
      return (Int.bmod piece.bytes.length (2 ^ 32),
        { w with stream := { w.stream with eod := w.stream.eod + piece.bytes.length } })

def bytestreamRewind (w : World E) : World E :=
  { w with stream := { w.stream with pos := 0, eod := 0 } }

/-- `from` of the source. -/
def bytestreamRecycle (ngrowsz start : Int) (w : World E) : Except Fault (Answer E) :=
  let start := start - start.tmod sys.pagesize
  if start > w.stream.growsz * ngrowsz then
    if 0 ≤ start ∧ start ≤ w.stream.eod ∧ w.stream.eod ≤ w.stream.data.length then
      .ok (start, { w with stream := { w.stream with
        data := splice w.stream.data 0 (slice w.stream.data start w.stream.eod)
        eod := w.stream.eod - start
        pos := w.stream.pos - start } })
    else
      .error .dangling
  else
    .ok (0, w)

structure ByteRange where
  start : Int
  stop : Int

/-- The inner loop of `bytestream_consume_lines` over the `avail` bytes between
the position and the end of the data. -/
def scanLines (linecb : MnByteStream → ByteRange → A → Int × A) :
    Nat → ByteRange → MnByteStream → A → Except Fault (Int × ByteRange × MnByteStream × A)
  | 0, line, s, acc => .ok (0, line, s, acc)
  | avail + 1, line, s, acc => do
      let ch ← peek s.pos s
      if ch = 10 then
        let line : ByteRange := { line with stop := s.pos }
        let (res, acc) := linecb s line acc
        if res ≠ 0 then
          return (res, line, s, acc)
        else
          let s := { s with pos := s.pos + 1 }
          scanLines linecb avail { line with start := s.pos } s acc
      else
        scanLines linecb avail line { s with pos := s.pos + 1 } acc

/-- Whether there are data to go on with. -/
def refill (readMore : Int → World E → Except Fault (Answer E)) (w : World E) :
    Except Fault (Bool × World E) :=
  if w.stream.eod ≤ w.stream.pos then do
    let (res, w) ← bytestreamConsumeData readMore w
    return (decide (res = .ready), w)
  else
    .ok (true, w)

/-- The end of a turn of the outer loop: gives back the memory before the line. -/
def shiftBack (line : ByteRange) (w : World E) : Except Fault (ByteRange × World E) :=
  if w.stream.growsz = 0 then
    .error .abort
  else
    let recyclepos := line.start - line.start.tmod w.stream.growsz
    if 0 ≤ recyclepos ∧ recyclepos ≤ w.stream.pos then do
      let (shiftback, w) ← bytestreamRecycle sys 2 recyclepos w
      if shiftback ≤ line.start then
        return ({ line with start := line.start - shiftback }, w)
      else
        .error .assertion
    else
      .error .assertion

def lineLoop (readMore : Int → World E → Except Fault (Answer E))
    (linecb : MnByteStream → ByteRange → A → Int × A) :
    Nat → ByteRange → World E → A → Except Fault (Int × World E × A)
  | 0, _, _, _ => .error .outOfFuel
  | fuel + 1, line, w, acc => do
      let (ready, w) ← refill readMore w
      if ready then
        let (res, line, s, acc) ←
          scanLines linecb (w.stream.eod - w.stream.pos).toNat line w.stream acc
        if res ≠ 0 then
          return (res, ⟨s, w.env⟩, acc)
        else
          let (line, w) ← shiftBack sys line ⟨s, w.env⟩
          lineLoop readMore linecb fuel line w acc
      else
        return (0, w, acc)

def bytestreamConsumeLines (readMore : Int → World E → Except Fault (Answer E))
    (linecb : MnByteStream → ByteRange → A → Int × A) (fuel : Nat) (w : World E) (acc : A) :
    Except Fault (Int × World E × A) :=
  lineLoop sys readMore linecb fuel { start := w.stream.pos, stop := 0 } w acc

end MnCommon.Bytestream
