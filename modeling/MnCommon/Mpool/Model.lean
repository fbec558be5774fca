import MnCommon.Memory.Run

/-! The memory pools of `mpool.c`. Every chunk is memory of its own: a place in
memory is a chunk and an offset in it, which may lie behind the end of the chunk. -/

namespace MnCommon.Mpool

open Memory (Fault)

abbrev Bytes := Nat → Nat → UInt8

/-- `arena` holds the `arenasz / 8` pointers to chunks; those not yet written are
indeterminate. `chunks` has the sizes of all chunks that were ever allocated. -/
structure MpoolCtx where
  arenasz : Nat
  chunksz : Nat
  currentChunk : Nat
  lastChunk : Nat
  currentPos : Nat
  arena : List (Option Nat)
  chunks : List Nat
  mem : Bytes

/-- A pointer into a chunk. -/
abbrev Place := Nat × Nat

/-- `sizeof(struct _mpool_item)`. -/
def itemSize : Nat := 8

def fill (mem : Bytes) (p : Place) (n : Nat) (byte : Nat → UInt8) : Bytes := fun chunk offset =>
  if chunk = p.1 ∧ p.2 ≤ offset ∧ offset < p.2 + n then byte (offset - p.2) else mem chunk offset

def memset (mem : Bytes) (p : Place) (byte : UInt8) (n : Nat) : Bytes := fill mem p n fun _ => byte

def memcpy (mem : Bytes) (target source : Place) (n : Nat) : Bytes :=
  fill mem target n fun i => mem source.1 (source.2 + i)

/-- A `size_t` in memory, the lowest byte first. -/
def writeSize (mem : Bytes) (p : Place) (sz : Nat) : Bytes :=
  fill mem p itemSize fun i => UInt8.ofNat (sz / 256 ^ i)

def readBytes (mem : Bytes) (p : Place) : Nat → Nat
  | 0 => 0
  | n + 1 => (mem p.1 p.2).toNat + 256 * readBytes mem (p.1, p.2 + 1) n

def readSize (mem : Bytes) (p : Place) : Nat := readBytes mem p itemSize

/-- `malloc` and `realloc` do not fail, here and below. -/
def mpoolCtxInit (chunksz : Nat) (mem : Bytes) : MpoolCtx where
  arenasz := 8
  chunksz := chunksz
  currentChunk := 0
  lastChunk := 0
  currentPos := 0
  arena := [some 0]
  chunks := [chunksz]
  mem := mem

def mpoolCtxReset (m : MpoolCtx) : MpoolCtx :=
  { m with lastChunk := max m.lastChunk m.currentChunk, currentChunk := 0, currentPos := 0 }

/-- The chunk behind a pointer of the arena. -/
def arenaAt (m : MpoolCtx) (i : Nat) : Except Fault Nat :=
  match m.arena[i]? with
  | some (some chunk) => .ok chunk
  | _ => .error .dangling

def growArena (m : MpoolCtx) : MpoolCtx :=
  if m.currentChunk * 8 = m.arenasz then
    { m with arenasz := m.arenasz * 2, arena := m.arena ++ List.replicate m.arena.length none }
  else
    m

/-- Returns the chunk that the pointer of the source points at. -/
def newChunk (sz : Nat) (m : MpoolCtx) : Except Fault (Nat × MpoolCtx) :=
  let next := { m with currentChunk := m.currentChunk + 1, currentPos := 0 }
  if m.lastChunk ≤ m.currentChunk then
    let grown := growArena next
    if grown.currentChunk < grown.arena.length then
      .ok (grown.chunks.length, { grown with
        arena := grown.arena.set grown.currentChunk (some grown.chunks.length)
        chunks := grown.chunks ++ [sz] })
    else
      .error .dangling
  else do
    let chunk ← arenaAt next next.currentChunk
    return (chunk, next)

/-- The size of a request rounded up to whole words, as a `size_t`. -/
def padded (sz : Nat) : Nat := (sz + if sz % 8 = 0 then 0 else 8 - sz % 8) % 2 ^ 64

/-- `res->sz = sz`, and the filling of the block in a build with assertions. -/
def mark (debug : Bool) (res : Place) (sz : Nat) (m : MpoolCtx) : MpoolCtx :=
  let mem := writeSize m.mem res sz
  { m with mem := if debug then memset mem (res.1, res.2 + itemSize) 0xa5 (readSize mem res) else mem }

/-- The chunk for a block of the usual size: the current one if it has room. -/
def pickChunk (sz1 : Nat) (m : MpoolCtx) : Except Fault (Nat × MpoolCtx) :=
  let nleft := (m.chunksz + (2 ^ 64 - m.currentPos)) % 2 ^ 64
  if nleft < sz1 then
    newChunk m.chunksz m
  else
    (arenaAt m m.currentChunk).map fun chunk => (chunk, m)

/-- The result points behind the header of the block. -/
def mpoolMalloc (debug : Bool) (sz : Nat) (m : MpoolCtx) : Except Fault (Place × MpoolCtx) := do
  let sz := padded sz
  let sz1 := (sz + itemSize) % 2 ^ 64
  if m.chunksz < sz1 then
    let (chunk, m) ← newChunk sz1 m
    let (_, m) ← newChunk m.chunksz m
    return ((chunk, itemSize), mark debug (chunk, 0) sz m)
  else
    let (chunk, m) ← pickChunk sz1 m
    let res : Place := (chunk, m.currentPos)
    return ((chunk, m.currentPos + itemSize),
      mark debug res sz { m with currentPos := m.currentPos + sz1 })

/-- `DATA_TO_MPOOL_ITEM`. -/
def dataToMpoolItem (d : Place) : Place := (d.1, d.2 - itemSize)

def mpoolRealloc (debug : Bool) (p : Option Place) (sz : Nat) (m : MpoolCtx) :
    Except Fault (Place × MpoolCtx) :=
  match p with
  | none => mpoolMalloc debug sz m
  | some p =>
      let mpi := dataToMpoolItem p
      if readSize m.mem mpi < sz then do
        let (pp, m) ← mpoolMalloc debug sz m
        return (pp, { m with mem := memcpy m.mem pp p (readSize m.mem mpi) })
      else
        .ok (p, { m with
          mem := if debug then memset m.mem (p.1, p.2 + sz) 0xa5 (readSize m.mem mpi - sz) else m.mem })

/-- A build with assertions overwrites the block; nothing else happens to it. -/
def mpoolFree (debug : Bool) (o : Option Place) (m : MpoolCtx) : MpoolCtx :=
  match o with
  | none => m
  | some p => { m with mem := if debug then memset m.mem p 0x5a (readSize m.mem (dataToMpoolItem p)) else m.mem }

/-- Frees the chunks below `n`, the last one first, and answers them after those that are freed already. A chunk
that is freed twice is a fault. -/
def freeChunks (m : MpoolCtx) : Nat → List Nat → Except Fault (List Nat)
  | 0, freed => .ok freed
  | n + 1, freed => do
      let chunk ← arenaAt m n
      if chunk ∈ freed ∨ m.chunks.length ≤ chunk then .error .dangling else freeChunks m n (freed ++ [chunk])

/-- The chunks that are freed. -/
def mpoolCtxFini (m : MpoolCtx) : Except Fault (List Nat) := freeChunks m (max m.lastChunk m.currentChunk + 1) []

end MnCommon.Mpool
