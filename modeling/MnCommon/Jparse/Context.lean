import MnCommon.Bytestream.Transfer
import MnCommon.Jparse.Model
import MnCommon.Memory.Run

/-! The contexts of the pull parser with the buffers of their streams. -/

namespace MnCommon.Jparse

open Memory (Fault)
open Bytestream (MnByteStream World System Answer Piece Consumed content bytestreamReadMore bytestreamConsumeData
  bytestreamRewind)

/-- What `read` answers; an answer may depend on all that has happened so far. There is memory
for everybody, of which nobody knows what is in it. -/
structure Files (F : Type) where
  read : Int → Nat → F → Option (List UInt8) × F
  junk : F → Nat → UInt8

def Files.system {F : Type} (files : Files F) (fd : Int) : System F where
  pagesize := 4096
  pagesize_pos := Bytestream.page_pos
  realloc := fun _ env => (true, env)
  junk := files.junk
  read := files.read fd
  recv := files.read fd
  write := fun _ sz env => (some sz, env)
  send := fun _ sz env => (some sz, env)

/-- The bytes for which there may be memory. -/
def limit : Int := 2 ^ 61

/-- The function that the stream has as its `read_more`. -/
inductive ReadMore where
  | null
  | bytestream
  | parseData
  deriving DecidableEq, Repr

/-- `jparse_ctx_t`, less the pool of the strings. There is no memory at a null pointer. -/
structure JparseContext (U : Type) where
  bs : MnByteStream
  readMore : ReadMore
  udata : Option U
  errorpos : Int
  fd : Int
  deriving DecidableEq

/-- What a callback sees of a context. -/
structure View (U : Type) where
  data : List UInt8
  pos : Int
  errorpos : Int
  udata : Option U
  fd : Int

/-- A callback, as what it does with the stream: it looks at the data and at the marks, moves
the marks, and calls `bytestream_consume_data`. -/
inductive Client (U A : Type) where
  | done (a : A)
  | look (next : View U → Client U A)
  | put (pos errorpos : Int) (rest : Client U A)
  | consume (next : Consumed → Client U A)

variable {F U A : Type} (files : Files F)

namespace JparseContext

def view (ctx : JparseContext U) : View U :=
  { data := content ctx.bs, pos := ctx.bs.pos, errorpos := ctx.errorpos, udata := ctx.udata, fd := ctx.fd }

/-- A request for more than there is memory for is the end. -/
def read (ctx : JparseContext U) (sz : Int) (w : World F) : Except Fault (Answer F) :=
  match ctx.readMore with
  | .null => .error .assertion
  | .bytestream =>
      if limit < w.stream.eod + sz then .error .abort else bytestreamReadMore (files.system ctx.fd) sz w
  | .parseData => .ok (0, w)

end JparseContext

def Client.run : Client U A → JparseContext U → F → Except Fault (A × JparseContext U × F)
  | .done a, ctx, env => .ok (a, ctx, env)
  | .look next, ctx, env => (next ctx.view).run ctx env
  | .put pos errorpos rest, ctx, env =>
      rest.run { ctx with bs := { ctx.bs with pos := pos }, errorpos := errorpos } env
  | .consume next, ctx, env =>
      match bytestreamConsumeData (ctx.read files) ⟨ctx.bs, env⟩ with
      | .error fault => .error fault
      | .ok (res, w) => (next res).run { ctx with bs := w.stream } w.env

/-- The buffer is as large as a step. -/
def jparseCtxNew (growsz : Nat) (env : F) : Except Fault (JparseContext U) :=
  if limit < growsz then .error .abort
  else
    .ok {
      bs := { data := (List.range growsz).map (files.junk env), sz := growsz, growsz := growsz, eod := 0, pos := 0 }
      readMore := .null
      udata := none
      errorpos := -1
      fd := -1 }

def jparseCtxParseFd (fd : Int) (cb : Client U A) (udata : Option U) (ctx : JparseContext U) (env : F) :
    Except Fault (A × JparseContext U × F) :=
  cb.run files { ctx with fd := fd, readMore := .bytestream, udata := udata } env

/-- The buffer is freed. -/
def bytestreamFini (s : MnByteStream) : MnByteStream := { s with data := [] }

/-- The buffer of the client is given to the stream, and taken back. -/
def jparseCtxParseData (data : Piece) (cb : Client U A) (udata : Option U) (ctx : JparseContext U) (env : F) :
    Except Fault (A × JparseContext U × F) := do
  let bs := bytestreamFini ctx.bs
  let (res, ctx, env) ← cb.run files
    { ctx with
      bs := { bs with data := data.bytes, sz := data.bytes.length, eod := data.bytes.length }
      readMore := .parseData
      udata := udata } env
  return (res, { ctx with bs := { ctx.bs with data := [] } }, env)

def jparseCtxComplete (ctx : JparseContext U) : JparseContext U :=
  { ctx with bs := { ctx.bs with pos := 0, eod := 0 }, udata := none, errorpos := -1, fd := -1 }

/-- A parse, and what is given to it. -/
inductive Parse (U A : Type) where
  | fd (file : Int) (cb : Client U A) (udata : Option U)
  | data (bytes : Piece) (cb : Client U A) (udata : Option U)

def Parse.run : Parse U A → JparseContext U → F → Except Fault (A × JparseContext U × F)
  | .fd file cb udata, ctx, env => jparseCtxParseFd files file cb udata ctx env
  | .data bytes cb udata, ctx, env => jparseCtxParseData files bytes cb udata ctx env

/-- A parse with the `jparse_ctx_complete` behind it. -/
def parseStep (op : Parse U A) (st : JparseContext U × F) : Except Fault (A × (JparseContext U × F)) := do
  let (res, ctx, env) ← op.run files st.1 st.2
  return (res, (jparseCtxComplete ctx, env))

end MnCommon.Jparse
