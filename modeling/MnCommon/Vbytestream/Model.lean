import MnCommon.Bytestream.Transfer

/-! The vectored byte streams of `vbytestream.c`. The number of their segments is
taken to fit into an `int`. -/

namespace MnCommon.Vbytestream

open Memory (Fault)
open Bytestream (Text toSize splice printed length_splice)

/-- A number that has become an `int`. -/
def toInt (n : Int) : Int := n.bmod (2 ^ 32)

/-- `data` is all the memory behind the header, `sz` the part of it that counts. -/
@[ext]
structure Mnbytes where
  sz : Nat
  data : List UInt8
  whole : sz ≤ data.length

instance : DecidableEq Mnbytes := fun _ _ => decidable_of_iff _ Mnbytes.ext_iff.symm

structure Iovec where
  iovBase : Option Mnbytes
  iovLen : Nat
  deriving DecidableEq

structure Cursor where
  idx : Int
  offt : Int
  total : Int
  deriving DecidableEq

structure Mnvbytestream where
  iov : List Iovec
  eod : Cursor
  pos : Cursor
  growsz : Nat
  deriving DecidableEq

/-- `malloc` does not fail below `PTRDIFF_MAX`; it answers the bytes that happen to be
there. `readv` is told how much room there is, `writev` which bytes there are, and no
answer of theirs stands for an error. -/
structure System (E : Type) where
  iovMax : Nat
  malloc : Nat → E → (Nat → UInt8) × E
  readv : Nat → E → Option (List UInt8) × E
  writev : List UInt8 → E → Option Nat × E

structure World (E : Type) where
  stream : Mnvbytestream
  env : E

abbrev Answer (E : Type) := Int × World E

variable {E : Type} (sys : System E)

def iovecInit : Iovec := { iovBase := none, iovLen := 0 }

/-- The assertion and the size of the block of `BYTES_NEW_BODY`. A size that wraps
around is one that not even the first byte fits in. -/
def bytesNew (sz : Nat) (env : E) : Except Fault (Mnbytes × E) :=
  if sz = 0 then
    .error .assertion
  else
    let msz := sz + (8 - sz % 8)
    if 24 + msz < 2 ^ 63 then
      let (junk, env) := sys.malloc (24 + msz) env
      .ok (⟨sz, (List.range msz).map junk, by simp [msz]⟩, env)
    else
      .error .abort

def iovecAlloc (iov : Iovec) (sz : Nat) (env : E) : Except Fault (Iovec × E) :=
  if iov.iovBase = none ∧ iov.iovLen = 0 then do
    let (s, env) ← bytesNew sys sz env
    return ({ iovBase := some s, iovLen := sz }, env)
  else
    .error .assertion

def iovecFini (iov : Iovec) : Iovec :=
  match iov.iovBase with
  | some _ => iovecInit
  | none => iov

/-- An index below zero is a large `unsigned`. -/
def arrayGet (iov : List Iovec) (idx : Int) : Option Iovec :=
  if 0 ≤ idx then iov[idx.toNat]? else none

/-- `array_ensure_len` with `ARRAY_FLAG_SAVE`, to more or to fewer elements. -/
def arrayEnsureLen (iov : List Iovec) (len : Int) : Except Fault (List Iovec) :=
  if 0 ≤ len then
    .ok (iov.take len.toNat ++ List.replicate (len.toNat - iov.length) iovecInit)
  else
    .error .abort

def iovecGetSafe (idx : Int) (iov : List Iovec) : Except Fault (Iovec × List Iovec) :=
  match arrayGet iov idx with
  | some edge => .ok (edge, iov)
  | none => do
      let iov ← arrayEnsureLen iov (idx + 1)
      match arrayGet iov idx with
      | some edge => return (edge, iov)
      | none => .error .assertion

/-- The reserve is memory of the array only. -/
def vbytestreamInit (growsz _iovreserve : Nat) : Except Fault Mnvbytestream :=
  if 0 < growsz then
    .ok { iov := [], eod := ⟨0, 0, 0⟩, pos := ⟨0, 0, 0⟩, growsz := growsz }
  else
    .error .assertion

def Mnbytes.write (s : Mnbytes) (start : Nat) (bytes : List UInt8)
    (fits : start + bytes.length ≤ s.data.length) : Mnbytes where
  sz := s.sz
  data := splice s.data start bytes
  whole := (length_splice fits).symm ▸ s.whole

/-- Bytes that are written through `iov_base`. -/
def poke (edge : Iovec) (offt : Int) (bytes : List UInt8) : Except Fault Iovec :=
  if bytes = [] then
    .ok edge
  else
    match edge.iovBase with
    | none => .error .nullDereference
    | some s =>
        if fits : 0 ≤ offt ∧ offt.toNat + bytes.length ≤ s.data.length then
          .ok { edge with iovBase := some (s.write offt.toNat bytes fits.2) }
        else
          .error .dangling

/-- Without a text `vsnprintf` reports an error. -/
def vsnprintf (edge : Iovec) (offt : Int) (sz : Nat) (text : Option Text) : Except Fault (Int × Iovec) :=
  match text with
  | none => .ok (-1, edge)
  | some text => do
      let edge ← poke edge offt (printed sz text)
      return (text.chars.length, edge)

def Mnvbytestream.put (s : Mnvbytestream) (idx : Int) (edge : Iovec) : Mnvbytestream :=
  { s with iov := s.iov.set idx.toNat edge }

/-- The last lines of `vbytestream_nprintf`. -/
def Mnvbytestream.advance (s : Mnvbytestream) (nused : Int) : Mnvbytestream :=
  { s with eod := { s.eod with offt := s.eod.offt + nused, total := s.eod.total + nused } }

def NPRINTF_NEEDMORE : Int := -130

/-- The edge that `vbytestream_nprintf` starts with. -/
def openEdge (sz : Int) (w : World E) : Except Fault (Iovec × World E) := do
  let (edge, iov) ← iovecGetSafe w.stream.eod.idx w.stream.iov
  let s := { w.stream with iov := iov }
  if edge.iovBase = none then
    if s.eod.offt = 0 then
      let (edge, env) ← iovecAlloc sys edge (toSize sz) w.env
      return (edge, ⟨s, env⟩)
    else
      .error .assertion
  else if 0 < s.eod.offt then
    return (edge, ⟨s, w.env⟩)
  else
    .error .assertion

/-- The edge after that, for a text that the first one has no room for. -/
def nextEdge (sz : Int) (text : Option Text) (w : World E) : Except Fault (Answer E) := do
  let idx := w.stream.eod.idx + 1
  let (edge, iov) ← iovecGetSafe idx w.stream.iov
  let s := { w.stream with iov := iov, eod := { w.stream.eod with idx := idx, offt := 0 } }
  if edge.iovBase = none then
    let (edge, env) ← iovecAlloc sys edge (toSize sz) w.env
    let (nused, edge) ← vsnprintf edge 0 (toSize sz) text
    if sz ≤ nused then
      return (NPRINTF_NEEDMORE, ⟨s.put idx (iovecFini edge), env⟩)
    else
      return (nused, ⟨(s.put idx edge).advance nused, env⟩)
  else
    .error .assertion

def vbytestreamNprintf (sz : Int) (text : Option Text) (w : World E) : Except Fault (Answer E) := do
  let (edge, w) ← openEdge sys sz w
  let idx := w.stream.eod.idx
  let offt := w.stream.eod.offt
  let avail := toInt (edge.iovLen - offt)
  let (nused, edge) ← vsnprintf edge offt (toSize avail) text
  if avail ≤ nused then
    if offt = 0 then
      if avail = sz then
        return (NPRINTF_NEEDMORE, ⟨w.stream.put idx (iovecFini edge), w.env⟩)
      else
        .error .assertion
    else
      nextEdge sys sz text ⟨w.stream.put idx { edge with iovLen := toSize offt }, w.env⟩
  else
    return (nused, ⟨(w.stream.put idx edge).advance nused, w.env⟩)

/-- Whether the edge has data. -/
def Mnvbytestream.part (s : Mnvbytestream) : Int := if 0 < s.eod.offt then 1 else 0

/-- The number of bytes is returned as an `int`. -/
def vbytestreamAdopt (data : Mnbytes) (w : World E) : Except Fault (Answer E) := do
  let last := w.stream.eod.idx + w.stream.part
  let iov ← arrayEnsureLen w.stream.iov (last + 1)
  let s := { w.stream with iov := iov }
  match arrayGet iov last with
  | none => .error .abort
  | some edge =>
      if edge.iovBase = none ∧ edge.iovLen = 0 then
        return (toInt data.sz, ⟨{ s.put last { iovBase := some data, iovLen := data.sz } with
          eod := { idx := s.eod.idx + 1, offt := 0, total := s.eod.total + data.sz } }, w.env⟩)
      else
        .error .assertion

/-- The full size of the memory counts again. -/
def rewound (iov : Iovec) : Iovec :=
  match iov.iovBase with
  | some s => { iov with iovLen := s.sz }
  | none => { iov with iovLen := 0 }

def vbytestreamRewind (w : World E) : World E :=
  { w with stream := { w.stream with
    iov := w.stream.iov.map rewound
    eod := ⟨0, 0, 0⟩
    pos := ⟨0, 0, 0⟩ } }

/-- `div` of the C library; both numbers become an `int`. -/
def div (numer denom : Int) : Except Fault (Int × Int) :=
  let numer := toInt numer
  let denom := toInt denom
  if denom = 0 ∨ (numer = -2 ^ 31 ∧ denom = -1) then
    .error .abort
  else
    .ok (numer.tdiv denom, numer.tmod denom)

/-- The loop of `vbytestream_read` that gives memory to some slots. -/
def allocSlots (growsz : Nat) : List Nat → List Iovec → E → Except Fault (List Iovec × E)
  | [], iov, env => .ok (iov, env)
  | i :: slots, iov, env =>
      match iov[i]? with
      | none => .ok (iov, env)
      | some slot => do
          let (slot, env) ← iovecAlloc sys slot growsz env
          allocSlots growsz slots (iov.set i slot) env

/-- The room that a call finds in its slots. It does not get past a slot that has a
length but no memory. -/
def room : List Iovec → Nat
  | [] => 0
  | slot :: slots =>
      match slot.iovBase with
      | none => if slot.iovLen = 0 then room slots else 0
      | some _ => slot.iovLen + room slots

/-- What `readv` does to the slots. -/
def scatter : List UInt8 → List Iovec → Except Fault (List Iovec)
  | _, [] => .ok []
  | bytes, slot :: slots => do
      let slot' ← poke slot 0 (bytes.take slot.iovLen)
      let slots ← scatter (bytes.drop slot.iovLen) slots
      return slot' :: slots

/-- The bytes that `writev` finds in its slots. -/
def gather : List Iovec → Except Fault (List UInt8)
  | [] => .ok []
  | slot :: slots =>
      match slot.iovBase with
      | none => if slot.iovLen = 0 then gather slots else .ok []
      | some s =>
          if slot.iovLen ≤ s.data.length then do
            let rest ← gather slots
            return s.data.take slot.iovLen ++ rest
          else
            .error .dangling

/-- The end of the data after `nread` bytes have come in. -/
def arrive (nread : Int) (w : World E) : Except Fault (Answer E) := do
  let (quot, rem) ← div nread w.stream.growsz
  let eod : Cursor := { idx := w.stream.eod.idx + quot, offt := rem, total := w.stream.eod.total + nread }
  let s := { w.stream with eod := eod }
  if 0 < rem then
    match arrayGet s.iov eod.idx with
    | some edge => return (nread, ⟨s.put eod.idx { edge with iovLen := toSize rem }, w.env⟩)
    | none => .error .assertion
  else
    return (nread, ⟨s, w.env⟩)

/-- The slots from the index on, as far as the array has them. -/
def slotsFrom (idx count : Int) (iov : List Iovec) : List Iovec :=
  if 0 ≤ idx then (iov.drop idx.toNat).take count.toNat else []

/-- The number of the slots that `vbytestream_read` asks for. -/
def slotsNeeded (sz : Int) (growsz : Nat) : Except Fault Int := do
  let (quot, rem) ← div sz growsz
  return quot + if 0 < rem then 1 else 0

/-- The slots that `vbytestream_read` offers to `readv`. The loop that is to give memory
to new ones starts at the length that the array has by then. -/
def offerSlots (needed : Int) (w : World E) : Except Fault (List Iovec × World E) := do
  let ffree := w.stream.eod.idx + w.stream.part
  let iov ← arrayEnsureLen w.stream.iov (ffree + needed)
  let (iov, env) ← allocSlots sys w.stream.growsz (List.range' iov.length (iov.length - iov.length)) iov w.env
  return (slotsFrom ffree needed iov, ⟨{ w.stream with iov := iov }, env⟩)

/-- What `vbytestream_read` makes of the answer of `readv`. -/
def receive (offered : List Iovec) (answer : Option (List UInt8) × E) (s : Mnvbytestream) :
    Except Fault (Answer E) :=
  match answer with
  | (none, env) => .ok (-1, ⟨s, env⟩)
  | (some bytes, env) =>
      let bytes := bytes.take (room offered)
      if bytes = [] then
        .ok (0, ⟨s, env⟩)
      else do
        let filled ← scatter bytes offered
        let ffree := (s.eod.idx + s.part).toNat
        let iov := s.iov.take ffree ++ (filled ++ s.iov.drop (ffree + filled.length))
        arrive bytes.length ⟨{ s with iov := iov }, env⟩

def vbytestreamRead (sz : Int) (w : World E) : Except Fault (Answer E) :=
  if sz < 0 then
    .error .assertion
  else do
    let needed ← slotsNeeded sz w.stream.growsz
    if needed = 0 ∨ sys.iovMax ≤ needed then
      return (-1, w)
    else if w.stream.iov.length < w.stream.eod.idx then
      .error .assertion
    else if 0 < needed then
      let (offered, w) ← offerSlots sys needed w
      receive offered (sys.readv (room offered) w.env) w.stream
    else
      return (0, w)

/-- `writev` of some slots from the position on. -/
def writeSlots (iovcnt : Int) (w : World E) : Except Fault (Option Nat × World E) :=
  match arrayGet w.stream.iov w.stream.pos.idx with
  | none => .ok (none, w)
  | some _ =>
      if w.stream.pos.idx + iovcnt ≤ w.stream.iov.length then do
        let bytes ← gather (slotsFrom w.stream.pos.idx iovcnt w.stream.iov)
        let (accepted, env) := sys.writev bytes w.env
        return (accepted.map (min · bytes.length), ⟨w.stream, env⟩)
      else
        .error .dangling

/-- The same with the edge closed for the time of the call. -/
def writeEdge (iovcnt : Int) (w : World E) : Except Fault (Option Nat × World E) :=
  let idx := w.stream.eod.idx
  match arrayGet w.stream.iov idx with
  | none => .error .assertion
  | some edge => do
      let closed := { edge with iovLen := toSize w.stream.eod.offt }
      let (accepted, w) ← writeSlots sys iovcnt ⟨w.stream.put idx closed, w.env⟩
      match edge.iovBase with
      | none => .error .nullDereference
      | some s => return (accepted, ⟨w.stream.put idx { closed with iovLen := s.sz }, w.env⟩)

def writeOut (iovcnt : Int) (w : World E) : Except Fault (Option Nat × World E) :=
  if w.stream.part = 1 then writeEdge sys iovcnt w else writeSlots sys iovcnt w

def vbytestreamWrite (w : World E) : Except Fault (Answer E) :=
  let part := w.stream.part
  let iovcnt := w.stream.eod.idx + part - w.stream.pos.idx
  -- below zero it is a large `size_t`
  if iovcnt ≤ 0 ∨ sys.iovMax ≤ iovcnt then
    .ok (-1, w)
  else do
    let (accepted, w) ← writeOut sys iovcnt w
    match accepted with
    | none => return (-1, w)
    | some nwritten =>
        return (nwritten, ⟨{ w.stream with pos :=
          { idx := w.stream.pos.idx + (iovcnt - part)
            offt := w.stream.eod.offt
            total := w.stream.pos.total + nwritten } }, w.env⟩)

end MnCommon.Vbytestream
