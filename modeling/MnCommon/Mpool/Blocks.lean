import MnCommon.Mpool.Layout

/-! The blocks of a pool over whole runs: they do not overlap, and resizing one
keeps its contents and those of the others. -/

namespace MnCommon.Mpool

open Memory (Fault Along)

inductive PoolOp where
  | malloc (sz : UInt64)
  | realloc (i : Nat) (sz : UInt64)
  | reset
  | store (i k : Nat) (byte : UInt8)

/-- A pool and the blocks handed out since the last reset; one that has moved stays
in the list. -/
structure Client where
  pool : MpoolCtx
  blocks : List Block

/-- The block behind a pointer that has been handed out. -/
def blockAt (p : Place) (m : MpoolCtx) : Block where
  chunk := p.1
  offset := p.2 - itemSize
  payload := readSize m.mem (dataToMpoolItem p)

def Client.hand (c : Client) (p : Place) (pool : MpoolCtx) : Client := ⟨pool, c.blocks ++ [blockAt p pool]⟩

/-- A `realloc` of a block that there is not is one of NULL. A client stores bytes
into the payload of its blocks only. -/
def step (debug : Bool) : PoolOp → Client → Except Fault (Option Place × Client)
  | .malloc sz, c => do
      let (p, pool) ← mpoolMalloc debug sz.toNat c.pool
      return (some p, c.hand p pool)
  | .realloc i sz, c =>
      match c.blocks[i]? with
      | none => do
          let (p, pool) ← mpoolRealloc debug none sz.toNat c.pool
          return (some p, c.hand p pool)
      | some b => do
          let (p, pool) ← mpoolRealloc debug (some b.data) sz.toNat c.pool
          if p = b.data then
            return (some p, { c with pool := pool })
          else
            return (some p, c.hand p pool)
  | .reset, c => .ok (none, ⟨mpoolCtxReset c.pool, []⟩)
  | .store i k byte, c =>
      match c.blocks[i]? with
      | none => .ok (none, c)
      | some b =>
          if k < b.payload then
            .ok (none, { c with pool := { c.pool with
              mem := memset c.pool.mem (b.chunk, b.offset + itemSize + k) byte 1 } })
          else
            .ok (none, c)

/-- The payload of the block reads the same in both memories. -/
def SameContents (mem next : Bytes) (b : Block) : Prop :=
  ∀ k < b.payload, next b.chunk (b.offset + itemSize + k) = mem b.chunk (b.offset + itemSize + k)

/-- What an allocation keeps: the bytes of the block that is resized, as far as the
old and the new size go, and all bytes of the other blocks. -/
def Keeps : PoolOp → Client → Option Place → Client → Prop
  | .malloc _, c, _, next => ∀ b ∈ c.blocks, SameContents c.pool.mem next.pool.mem b
  | .realloc i sz, c, answer, next =>
      (∀ b, c.blocks[i]? = some b → ∃ p, answer = some p ∧ ∀ k < min b.payload sz.toNat,
        next.pool.mem p.1 (p.2 + k) = c.pool.mem b.chunk (b.offset + itemSize + k)) ∧
      ∀ j b, j ≠ i → c.blocks[j]? = some b → SameContents c.pool.mem next.pool.mem b
  | _, _, _, _ => True

/-- The operation succeeds, leaves blocks that do not overlap, and keeps what it has
to keep. -/
def Upholds (debug : Bool) (op : PoolOp) (c : Client) : Prop :=
  ∃ answer next, step debug op c = .ok (answer, next) ∧ next.blocks.Pairwise Block.Disjoint ∧
    Keeps op c answer next

/-- No request wraps when its header is added. -/
def Modest : PoolOp → Client → Prop
  | .malloc sz, _ => Whole sz.toNat
  | .realloc _ sz, _ => Whole sz.toNat
  | _, _ => True

/-- The blocks of the client as the pool sees them. -/
structure Tidy (c : Client) : Prop where
  sound : Sound c.pool
  apart : c.blocks.Pairwise Block.Disjoint
  behind : ∀ b ∈ c.blocks, Behind c.pool b
  header : ∀ b ∈ c.blocks, readSize c.pool.mem (b.chunk, b.offset) = b.payload

variable {debug : Bool} {c next : Client} {m pool : MpoolCtx} {b : Block} {sz : Nat} {mem : Bytes}

theorem covers_payload {k : Nat} (low : k < b.payload) : b.Covers b.chunk (b.offset + itemSize + k) := by
  refine ⟨rfl, ?_, ?_⟩
  · omega
  · rw [Block.stop]
    omega

theorem Block.Disjoint.same {d : Block} (apart : d.Disjoint b)
    (frame : ∀ chunk offset, ¬ b.Covers chunk offset → pool.mem chunk offset = m.mem chunk offset) :
    SameContents m.mem pool.mem d ∧
      readSize pool.mem (d.chunk, d.offset) = readSize m.mem (d.chunk, d.offset) := by
  constructor
  · exact fun k low => frame _ _ (apart.symm.uncovered (covers_payload low))
  · refine readBytes_congr itemSize d.offset fun i low high => frame _ _ (apart.symm.uncovered ⟨rfl, low, ?_⟩)
    rw [Block.stop]
    omega

theorem blockAt_data (header : readSize pool.mem (b.chunk, b.offset) = b.payload) :
    blockAt b.data pool = b := by
  rw [blockAt]
  simp only [Block.data, dataToMpoolItem, Nat.add_sub_cancel, header]

/-- A new block joins the others, with whatever bytes in the payloads. -/
theorem Tidy.hand (tidy : Tidy c) (handed : Handed sz c.pool b pool)
    (own : readSize mem (b.chunk, b.offset) = b.payload)
    (others : ∀ d ∈ c.blocks, readSize mem (d.chunk, d.offset) = readSize c.pool.mem (d.chunk, d.offset)) :
    Tidy (c.hand b.data { pool with mem := mem }) := by
  rcases tidy with ⟨sound, apart, behind, header⟩
  have found : blockAt b.data { pool with mem := mem } = b := blockAt_data own
  refine ⟨{ handed.sound with }, ?_, fun d inside => ?_, fun d inside => ?_⟩
  · rw [Client.hand, found, List.pairwise_append]
    refine ⟨apart, List.pairwise_singleton _ _, fun d inside e here => ?_⟩
    rw [List.mem_singleton.mp here]
    exact (handed.before d (behind d inside)).disjoint
  · rw [Client.hand, found] at inside
    rcases List.mem_append.mp inside with old | new
    · exact handed.keeps d (behind d old)
    · rw [List.mem_singleton.mp new]
      exact handed.behind
  · rw [Client.hand, found] at inside
    rcases List.mem_append.mp inside with old | new
    · exact (others d old).trans (header d old)
    · rw [List.mem_singleton.mp new]
      exact own

theorem Tidy.malloc (tidy : Tidy c) (handed : Handed sz c.pool b pool) :
    Tidy (c.hand b.data pool) ∧ ∀ d ∈ c.blocks, SameContents c.pool.mem pool.mem d := by
  have kept : ∀ d ∈ c.blocks, SameContents c.pool.mem pool.mem d ∧ _ := fun d inside =>
    ((handed.before d (tidy.behind d inside)).disjoint).same handed.frame
  exact ⟨tidy.hand handed handed.header fun d inside => (kept d inside).2, fun d inside => (kept d inside).1⟩

/-- The memory behind the headers may change wherever the blocks stay as they are. -/
theorem Tidy.rewrite (tidy : Tidy c)
    (headers : ∀ b ∈ c.blocks, readSize mem (b.chunk, b.offset) = readSize c.pool.mem (b.chunk, b.offset)) :
    Tidy { c with pool := { c.pool with mem := mem } } :=
  ⟨{ tidy.sound with }, tidy.apart, tidy.behind, fun b inside => (headers b inside).trans (tidy.header b inside)⟩

instance : Std.Symm Block.Disjoint := ⟨fun _ _ => Block.Disjoint.symm⟩

/-- Two blocks of the client are the same or do not overlap. -/
theorem Tidy.same_or_disjoint {d : Block} (tidy : Tidy c) (here : b ∈ c.blocks) (there : d ∈ c.blocks) :
    d = b ∨ d.Disjoint b := by
  by_cases same : d = b
  · exact .inl same
  · exact .inr (tidy.apart.forall there here same)

/-- No block stands twice in the list. -/
theorem Tidy.once (tidy : Tidy c) {i j : Nat} (apart : j ≠ i) (there : c.blocks[j]? = some b)
    (here : c.blocks[i]? = some b) : False := by
  have irreflexive : ¬ b.Disjoint b := by
    rintro (other | front | back)
    · exact other rfl
    · simp only [Block.stop, itemSize] at front
      omega
    · simp only [Block.stop, itemSize] at back
      omega
  rcases List.getElem?_eq_some_iff.mp there with ⟨low, first⟩
  rcases List.getElem?_eq_some_iff.mp here with ⟨high, second⟩
  have pairs := List.pairwise_iff_getElem.mp tidy.apart
  rcases Nat.lt_or_gt_of_ne apart with less | greater
  · exact irreflexive (by simpa only [first, second] using pairs j i low high less)
  · exact irreflexive (by simpa only [first, second] using pairs i j high low greater)

/-- Bytes written into the payload of one block leave all headers as they are, and
the other blocks. -/
theorem Tidy.fill_payload (tidy : Tidy c) (here : b ∈ c.blocks) {k n : Nat} (byte : Nat → UInt8)
    (within : k + n ≤ b.payload) :
    (∀ d ∈ c.blocks, readSize (fill c.pool.mem (b.chunk, b.offset + itemSize + k) n byte) (d.chunk, d.offset) =
      readSize c.pool.mem (d.chunk, d.offset)) ∧
    ∀ d ∈ c.blocks, d ≠ b →
      SameContents c.pool.mem (fill c.pool.mem (b.chunk, b.offset + itemSize + k) n byte) d := by
  have frame : ∀ chunk offset, ¬ b.Covers chunk offset →
      { c.pool with mem := fill c.pool.mem (b.chunk, b.offset + itemSize + k) n byte }.mem chunk offset =
        c.pool.mem chunk offset := by
    intro chunk offset free
    apply fill_outside
    simp only [Block.Covers, Block.stop, not_and_or] at free
    simp only
    omega
  constructor
  · intro d inside
    rcases tidy.same_or_disjoint here inside with rfl | apart
    · exact readBytes_congr itemSize d.offset fun i low high => fill_outside (.inr (.inl (by simp only; omega)))
    · exact (apart.same frame).2
  · intro d inside other
    rcases tidy.same_or_disjoint here inside with same | apart
    · exact absurd same other
    · exact (apart.same frame).1

/-- A block is resized where it is: the pool fills its end at most. -/
theorem realloc_stays (debug : Bool) (tidy : Tidy c) (here : b ∈ c.blocks) (room : sz ≤ b.payload) :
    ∃ pool, mpoolRealloc debug (some b.data) sz c.pool = .ok (b.data, pool) ∧
      Tidy { c with pool := pool } ∧
      (∀ k < min b.payload sz, pool.mem b.chunk (b.offset + itemSize + k) =
        c.pool.mem b.chunk (b.offset + itemSize + k)) ∧
      (∀ d ∈ c.blocks, d ≠ b → SameContents c.pool.mem pool.mem d) ∧ pool.chunks = c.pool.chunks ∧
      pool.chunksz = c.pool.chunksz := by
  have header := tidy.header b here
  have item : dataToMpoolItem b.data = (b.chunk, b.offset) := rfl
  have run : mpoolRealloc debug (some b.data) sz c.pool = .ok (b.data, { c.pool with
      mem := if debug then memset c.pool.mem (b.chunk, b.offset + itemSize + sz) 0xa5 (b.payload - sz)
        else c.pool.mem }) := by
    simp only [mpoolRealloc, item, header, if_neg (not_lt.mpr room)]
    rfl
  refine ⟨_, run, ?_⟩
  cases debug with
  | false => exact ⟨tidy, fun _ _ => rfl, fun _ _ _ _ _ => rfl, rfl, rfl⟩
  | true =>
      have within : sz + (b.payload - sz) ≤ b.payload := by omega
      rcases tidy.fill_payload here (fun _ => 0xa5) within with ⟨headers, others⟩
      refine ⟨tidy.rewrite headers, fun k low => ?_, others, rfl, rfl⟩
      have front : b.offset + itemSize + k < b.offset + itemSize + sz := by omega
      have kept : fill c.pool.mem (b.chunk, b.offset + itemSize + sz) (b.payload - sz) (fun _ => 0xa5) b.chunk
          (b.offset + itemSize + k) = c.pool.mem b.chunk (b.offset + itemSize + k) :=
        fill_outside (.inr (.inl front))
      exact kept

/-- Bytes written behind the header of a new block leave the header and the blocks
in front of it as they are, whether they fit into the block or not. -/
theorem Handed.fill_behind {e : Block} (handed : Handed sz m e pool) (n : Nat) (byte : Nat → UInt8) :
    readSize (fill pool.mem e.data n byte) (e.chunk, e.offset) = e.payload ∧
      ∀ d, Behind m d → SameContents m.mem (fill pool.mem e.data n byte) d ∧
        readSize (fill pool.mem e.data n byte) (d.chunk, d.offset) = readSize m.mem (d.chunk, d.offset) := by
  constructor
  · rw [← handed.header]
    refine readBytes_congr itemSize e.offset fun i low high => fill_outside (.inr (.inl ?_))
    exact high
  · intro d behind
    have before := handed.before d behind
    have frame : ∀ chunk offset, d.Covers chunk offset →
        fill pool.mem e.data n byte chunk offset = m.mem chunk offset := by
      intro chunk offset covered
      rw [← handed.frame chunk offset (before.disjoint.symm.uncovered covered)]
      rcases covered with ⟨rfl, low, high⟩
      apply fill_outside
      rcases before with other | front
      · exact .inl other
      · refine .inr (.inl ?_)
        simp only [Block.data]
        omega
    refine ⟨fun k low => frame _ _ (covers_payload low), ?_⟩
    refine readBytes_congr itemSize d.offset fun i low high => frame _ _ ⟨rfl, low, ?_⟩
    rw [Block.stop]
    omega

/-- A block is moved: its bytes are copied behind the header of a new one. -/
theorem realloc_moves (debug : Bool) (tidy : Tidy c) (here : b ∈ c.blocks) (more : b.payload < sz)
    (whole : Whole sz) :
    ∃ e mid mem, mpoolRealloc debug (some b.data) sz c.pool = .ok (e.data, { mid with mem := mem }) ∧
      Handed sz c.pool e mid ∧ e.data ≠ b.data ∧ Tidy (c.hand e.data { mid with mem := mem }) ∧
      blockAt e.data { mid with mem := mem } = e ∧
      (∀ k < b.payload, mem e.chunk (e.offset + itemSize + k) =
        c.pool.mem b.chunk (b.offset + itemSize + k)) ∧
      ∀ d ∈ c.blocks, SameContents c.pool.mem mem d := by
  have header := tidy.header b here
  have item : dataToMpoolItem b.data = (b.chunk, b.offset) := rfl
  rcases mpoolMalloc_spec debug tidy.sound whole with ⟨e, mid, run, handed⟩
  have away := (handed.before b (tidy.behind b here)).disjoint
  rcases away.same handed.frame with ⟨contents, still⟩
  rcases handed.fill_behind b.payload fun i => mid.mem b.chunk (b.offset + itemSize + i) with ⟨own, others⟩
  have found : blockAt e.data { mid with mem := memcpy mid.mem e.data b.data b.payload } = e :=
    blockAt_data own
  refine ⟨e, mid, memcpy mid.mem e.data b.data b.payload, ?_, handed, ?_, ?_, found, fun k low => ?_,
    fun d inside => (others d (tidy.behind d inside)).1⟩
  · simp only [mpoolRealloc, item, header, if_pos more, run, bind, Except.bind, still]
    rfl
  · intro same
    rcases Prod.mk.inj same with ⟨chunk, offset⟩
    rcases away with other | front | back
    · exact other chunk.symm
    · simp only [Block.stop, itemSize] at *
      omega
    · simp only [Block.stop, itemSize] at *
      omega
  · exact tidy.hand handed own fun d inside => (others d (tidy.behind d inside)).2
  · rw [← contents k low]
    exact fill_inside low

/-- What one operation does, with all that the next ones need. -/
theorem step_tidy (debug : Bool) (op : PoolOp) (tidy : Tidy c) (modest : Modest op c) :
    ∃ answer next, step debug op c = .ok (answer, next) ∧ Tidy next ∧ Keeps op c answer next := by
  cases op with
  | malloc sz =>
      rcases mpoolMalloc_spec debug tidy.sound modest with ⟨b, pool, run, handed⟩
      rcases tidy.malloc handed with ⟨after, kept⟩
      refine ⟨some b.data, c.hand b.data pool, ?_, after, kept⟩
      simp only [step, run, bind, Except.bind, pure, Except.pure]
  | realloc i sz =>
      cases found : c.blocks[i]? with
      | none =>
          rcases mpoolMalloc_spec debug tidy.sound modest with ⟨b, pool, run, handed⟩
          rcases tidy.malloc handed with ⟨after, kept⟩
          refine ⟨some b.data, c.hand b.data pool, ?_, after, fun b there => ?_, fun j d _ there => ?_⟩
          · simp only [step, found, mpoolRealloc, run, bind, Except.bind, pure, Except.pure]
          · cases there.symm.trans found
          · exact kept d (List.mem_of_getElem? there)
      | some b =>
          have here := List.mem_of_getElem? found
          have other : ∀ j d, j ≠ i → c.blocks[j]? = some d → d ≠ b := by
            rintro j d apart there rfl
            exact tidy.once apart there found
          by_cases room : sz.toNat ≤ b.payload
          · rcases realloc_stays debug tidy here room with ⟨pool, run, after, kept, others, -, -⟩
            refine ⟨some b.data, { c with pool := pool }, ?_, after, fun d there => ?_, fun j d apart there => ?_⟩
            · simp only [step, found, run, bind, Except.bind, if_true]
              rfl
            · obtain rfl : b = d := Option.some.inj (found.symm.trans there)
              exact ⟨b.data, rfl, kept⟩
            · exact others d (List.mem_of_getElem? there) (other j d apart there)
          · rcases realloc_moves debug tidy here (not_le.mp room) modest with
              ⟨e, mid, mem, run, -, moved, after, -, copied, kept⟩
            refine ⟨some e.data, c.hand e.data { mid with mem := mem }, ?_, after, fun d there => ?_,
              fun j d _ there => ?_⟩
            · simp only [step, found, run, bind, Except.bind, if_neg moved]
              rfl
            · obtain rfl : b = d := Option.some.inj (found.symm.trans there)
              exact ⟨e.data, rfl, fun k low => copied k (by omega)⟩
            · exact kept d (List.mem_of_getElem? there)
  | reset =>
      exact ⟨none, ⟨mpoolCtxReset c.pool, []⟩, rfl, ⟨tidy.sound.reset, .nil, by simp, by simp⟩, trivial⟩
  | store i k byte =>
      cases found : c.blocks[i]? with
      | none => exact ⟨none, c, by simp only [step, found], tidy, trivial⟩
      | some b =>
          have here := List.mem_of_getElem? found
          by_cases low : k < b.payload
          · have within : k + 1 ≤ b.payload := low
            refine ⟨none, _, by simp only [step, found, if_pos low]; rfl, ?_, trivial⟩
            exact tidy.rewrite (tidy.fill_payload here (fun _ => byte) within).1
          · exact ⟨none, c, by simp only [step, found, if_neg low], tidy, trivial⟩

def Client.init (chunksz : Nat) (mem : Bytes) : Client := ⟨mpoolCtxInit chunksz mem, []⟩

theorem Tidy.init {chunksz : Nat} (small : chunksz < 2 ^ 64) (mem : Bytes) : Tidy (Client.init chunksz mem) :=
  ⟨.init mem small, .nil, by simp [Client.init], by simp [Client.init]⟩

theorem step_upholds (debug : Bool) (op : PoolOp) (c : Client) (tidy : Tidy c) (modest : Modest op c) :
    Upholds debug op c := by
  rcases step_tidy debug op tidy modest with ⟨answer, next, run, after, kept⟩
  exact ⟨answer, next, run, after.apart, kept⟩

theorem step_keeps (debug : Bool) (op : PoolOp) (c : Client) (answer : Option Place) (next : Client)
    (tidy : Tidy c) (modest : Modest op c) (stepped : step debug op c = .ok (answer, next)) : Tidy next := by
  rcases step_tidy debug op tidy modest with ⟨answer', next', run, after, -⟩
  rcases Prod.mk.inj (Except.ok.inj (stepped.symm.trans run)) with ⟨-, rfl⟩
  exact after

/-- Where the current chunk is the first one and nothing has moved the position. -/
theorem mpoolMalloc_first {n sz1 : Nat} (debug : Bool) (size : padded sz = n)
    (sum : (n + itemSize) % 2 ^ 64 = sz1) (room : sz1 ≤ m.chunksz) (pos : m.currentPos = 0)
    (small : m.chunksz < 2 ^ 64) (first : arenaAt m m.currentChunk = .ok 0) :
    mpoolMalloc debug sz m = .ok ((0, itemSize), mark debug (0, 0) n { m with currentPos := sz1 }) := by
  have left : (m.chunksz + (2 ^ 64 - m.currentPos)) % 2 ^ 64 = m.chunksz := by omega
  have picked : pickChunk sz1 m = .ok (0, m) := by
    rw [pickChunk, left, if_neg (not_lt.mpr room), first]
    rfl
  rw [mpoolMalloc]
  simp only [size, sum, if_neg (not_lt.mpr room), picked, bind, Except.bind, pure, Except.pure, pos, Nat.zero_add]

/-- A request that wraps does not move the position on: the next block lies in it. -/
theorem wrapped_overlaps {chunksz : Nat} {sz : UInt64} (mem : Bytes) (low : 2 ^ 64 - 16 < sz.toNat)
    (high : sz.toNat ≤ 2 ^ 64 - 8) (room : 8 ≤ chunksz) (small : chunksz < 2 ^ 64) :
    ¬ Along (step false) (Upholds false) [.malloc sz, .malloc 0] (Client.init chunksz mem) := by
  have padding : padded sz.toNat + itemSize = 2 ^ 64 := by
    rw [padded, itemSize]
    split <;> omega
  have whole : padded sz.toNat < 2 ^ 64 := padded_lt _
  generalize size : padded sz.toNat = n at padding whole
  have zero : (n + itemSize) % 2 ^ 64 = 0 := by rw [padding, Nat.mod_self]
  let start := mpoolCtxInit chunksz mem
  let first := mark false (0, 0) n { start with currentPos := 0 }
  let second := mark false (0, 0) 0 { first with currentPos := itemSize }
  have one : mpoolMalloc false sz.toNat start = .ok ((0, itemSize), first) :=
    mpoolMalloc_first false size zero (Nat.zero_le _) rfl small rfl
  have two : mpoolMalloc false (0 : UInt64).toNat first = .ok ((0, itemSize), second) :=
    mpoolMalloc_first false (by decide) (by decide) room rfl small rfl
  have seen : blockAt (0, itemSize) first = ⟨0, 0, n⟩ :=
    blockAt_data (b := ⟨0, 0, n⟩) (readSize_writeSize mem (0, 0) whole)
  have seen' : blockAt (0, itemSize) second = ⟨0, 0, 0⟩ :=
    blockAt_data (b := ⟨0, 0, 0⟩) (readSize_writeSize first.mem (0, 0) (by decide))
  have step1 : step false (.malloc sz) (Client.init chunksz mem) =
      .ok (some (0, itemSize), ⟨first, [⟨0, 0, n⟩]⟩) := by
    simp only [step, Client.init, start] at one ⊢
    simp only [one, bind, Except.bind, pure, Except.pure, Client.hand, seen, List.nil_append]
  have step2 : step false (.malloc 0) ⟨first, [⟨0, 0, n⟩]⟩ =
      .ok (some (0, itemSize), ⟨second, [⟨0, 0, n⟩, ⟨0, 0, 0⟩]⟩) := by
    simp only [step, two, bind, Except.bind, pure, Except.pure, Client.hand, seen']
    rfl
  intro run
  rcases (run.2 _ _ step1).1 with ⟨answer, next, stepped, apart, -⟩
  rcases Prod.mk.inj (Except.ok.inj (step2.symm.trans stepped)) with ⟨-, rfl⟩
  have pair := List.rel_of_pairwise_cons apart (List.mem_singleton_self _)
  rcases pair with other | front | back
  · exact other rfl
  · simp only [Block.stop, itemSize] at front
    omega
  · simp only [Block.stop, itemSize] at back
    omega

inductive PoolCall where
  | use (op : PoolOp)
  | free (i : Nat)

/-- A block that has been freed stays in the list; the pool does not hand its memory out again before a reset. -/
def callStep (debug : Bool) : PoolCall → Client → Except Fault (Option Place × Client)
  | .use op, c => step debug op c
  | .free i, c => .ok (none, { c with pool := mpoolFree debug (c.blocks[i]?.map Block.data) c.pool })

def ModestCall : PoolCall → Client → Prop
  | .use op, c => Modest op c
  | .free _, _ => True

/-- What a call keeps of the blocks: `mpool_free` touches the one that it is given. -/
def KeepsAll : PoolCall → Client → Option Place → Client → Prop
  | .use op, c, answer, next => Keeps op c answer next
  | .free i, c, _, next => next.blocks = c.blocks ∧
      ∀ j b, j ≠ i → c.blocks[j]? = some b → SameContents c.pool.mem next.pool.mem b

/-- The call succeeds, and a pool that is then given up frees each chunk that was ever allocated, each once. -/
def Releases (debug : Bool) (call : PoolCall) (c : Client) : Prop :=
  ∃ answer next, callStep debug call c = .ok (answer, next) ∧ next.blocks.Pairwise Block.Disjoint ∧
    KeepsAll call c answer next ∧ mpoolCtxFini next.pool = .ok (List.range next.pool.chunks.length).reverse

theorem freeChunks_ok (sound : Sound m) (n : Nat) (low : n ≤ max m.lastChunk m.currentChunk + 1) (freed : List Nat)
    (others : ∀ chunk ∈ freed, n ≤ chunk) : freeChunks m n freed = .ok (freed ++ (List.range n).reverse) := by
  induction n generalizing freed with
  | zero => rw [freeChunks, List.range_zero, List.reverse_nil, List.append_nil]
  | succ n ih =>
      have count := sound.count
      have here : arenaAt m n = .ok n := by simp only [arenaAt, sound.index n (by omega)]
      have fresh : ¬ (n ∈ freed ∨ m.chunks.length ≤ n) := by
        rintro (again | outside)
        · exact absurd (others n again) (Nat.not_succ_le_self n)
        · omega
      have run : freeChunks m (n + 1) freed = freeChunks m n (freed ++ [n]) := by
        rw [freeChunks, here]
        exact if_neg fresh
      rw [run, ih (by omega) (freed ++ [n]), List.range_succ, List.reverse_append, List.append_assoc]
      · rfl
      · intro chunk inside
        rcases List.mem_append.mp inside with old | new
        · exact Nat.le_of_succ_le (others chunk old)
        · rw [List.mem_singleton.mp new]

theorem Sound.fini (sound : Sound m) : mpoolCtxFini m = .ok (List.range m.chunks.length).reverse := by
  rw [mpoolCtxFini, freeChunks_ok sound _ (Nat.le_refl _) [] (by simp), sound.count, List.nil_append]

theorem free_tidy (debug : Bool) (tidy : Tidy c) (i : Nat) :
    ∃ next, callStep debug (.free i) c = .ok (none, next) ∧ Tidy next ∧ KeepsAll (.free i) c none next := by
  refine ⟨_, rfl, ?_⟩
  cases found : c.blocks[i]? with
  | none => exact ⟨tidy, rfl, fun _ _ _ _ _ _ => rfl⟩
  | some b =>
      have here := List.mem_of_getElem? found
      have other : ∀ j d, j ≠ i → c.blocks[j]? = some d → d ≠ b := by
        rintro j d apart there rfl
        exact tidy.once apart there found
      cases debug with
      | false => exact ⟨tidy, rfl, fun _ _ _ _ _ _ => rfl⟩
      | true =>
          have header := tidy.header b here
          have item : dataToMpoolItem b.data = (b.chunk, b.offset) := rfl
          have whole : 0 + b.payload ≤ b.payload := (Nat.zero_add _).le
          rcases tidy.fill_payload here (fun _ => 0x5a) whole with ⟨headers, others⟩
          simp only [Option.map_some, mpoolFree, item, header]
          exact ⟨tidy.rewrite headers, rfl, fun j d apart there => others d (List.mem_of_getElem? there) (other j d apart there)⟩

theorem call_tidy (debug : Bool) (call : PoolCall) (tidy : Tidy c) (modest : ModestCall call c) :
    ∃ answer next, callStep debug call c = .ok (answer, next) ∧ Tidy next ∧ KeepsAll call c answer next := by
  cases call with
  | use op => exact step_tidy debug op tidy modest
  | free i =>
      rcases free_tidy debug tidy i with ⟨next, run, after, kept⟩
      exact ⟨none, next, run, after, kept⟩

end MnCommon.Mpool
