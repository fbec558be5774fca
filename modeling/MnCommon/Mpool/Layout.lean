import MnCommon.Mpool.Model

/-! Where the blocks of a pool lie. -/

namespace MnCommon.Mpool

open Memory (Fault)

/-- A block as the allocator assigns it: its header and `payload` bytes from
`offset` on. -/
structure Block where
  chunk : Nat
  offset : Nat
  payload : Nat
  deriving DecidableEq, Repr

def Block.stop (b : Block) : Nat := b.offset + itemSize + b.payload

/-- The pointer that the client has. -/
def Block.data (b : Block) : Place := (b.chunk, b.offset + itemSize)

def Block.Covers (b : Block) (chunk offset : Nat) : Prop :=
  chunk = b.chunk ∧ b.offset ≤ offset ∧ offset < b.stop

/-- In another chunk or in front of the other block. -/
def Block.Before (b c : Block) : Prop := b.chunk ≠ c.chunk ∨ b.stop ≤ c.offset

def Block.Disjoint (b c : Block) : Prop := b.chunk ≠ c.chunk ∨ b.stop ≤ c.offset ∨ c.stop ≤ b.offset

theorem Block.Before.disjoint {b c : Block} (before : b.Before c) : b.Disjoint c := by
  rcases before with other | front
  · exact .inl other
  · exact .inr (.inl front)

theorem Block.Disjoint.symm {b c : Block} (apart : b.Disjoint c) : c.Disjoint b := by
  rcases apart with other | before | behind
  · exact .inl other.symm
  · exact .inr (.inr before)
  · exact .inr (.inl behind)

theorem Block.Disjoint.uncovered {b c : Block} (apart : b.Disjoint c) {chunk offset : Nat}
    (covered : c.Covers chunk offset) : ¬ b.Covers chunk offset := by
  rcases covered with ⟨rfl, low, high⟩
  rintro ⟨same, low', high'⟩
  rcases apart with other | before | behind
  · exact other same.symm
  · omega
  · omega

variable {mem : Bytes} {p : Place} {n chunk offset sz : Nat} {byte : Nat → UInt8}

theorem fill_inside {i : Nat} (low : i < n) : fill mem p n byte p.1 (p.2 + i) = byte i := by
  rw [fill, if_pos ⟨rfl, by omega, by omega⟩, Nat.add_sub_cancel_left]

theorem fill_outside (outside : chunk ≠ p.1 ∨ offset < p.2 ∨ p.2 + n ≤ offset) :
    fill mem p n byte chunk offset = mem chunk offset := by
  rw [fill, if_neg]
  rintro ⟨same, low, high⟩
  rcases outside with other | before | behind
  · exact other same
  · omega
  · omega

theorem readBytes_congr {other : Bytes} (n offset : Nat)
    (same : ∀ i, offset ≤ i → i < offset + n → other chunk i = mem chunk i) :
    readBytes other (chunk, offset) n = readBytes mem (chunk, offset) n := by
  induction n generalizing offset with
  | zero => rfl
  | succ n ih =>
      have first := same offset le_rfl (by omega)
      have rest := ih (offset + 1) fun i low high => same i (by omega) (by omega)
      rw [readBytes, readBytes, rest, first]

/-- The digits of a number, the lowest first. -/
theorem readBytes_digits (mem : Bytes) (sz chunk n k offset : Nat)
    (digits : ∀ i < n, mem chunk (offset + i) = UInt8.ofNat (sz / 256 ^ (k + i))) :
    readBytes mem (chunk, offset) n = sz / 256 ^ k % 256 ^ n := by
  induction n generalizing offset k with
  | zero => rw [readBytes, pow_zero, Nat.mod_one]
  | succ n ih =>
      have first : mem chunk offset = UInt8.ofNat (sz / 256 ^ k) := digits 0 (Nat.succ_pos n)
      have rest := ih (k + 1) (offset + 1) fun i low => by
        have here := digits (i + 1) (by omega)
        rwa [← Nat.add_assoc, ← Nat.add_assoc, Nat.add_right_comm offset, Nat.add_right_comm k] at here
      have shift : sz / 256 ^ (k + 1) = sz / 256 ^ k / 256 := by
        rw [pow_succ, Nat.div_div_eq_div_mul]
      calc readBytes mem (chunk, offset) (n + 1)
          = sz / 256 ^ k % 256 + 256 * (sz / 256 ^ k / 256 % 256 ^ n) := by
            rw [readBytes, first, rest, shift, UInt8.toNat_ofNat']
        _ = sz / 256 ^ k % (256 * 256 ^ n) := Nat.mod_mul.symm
        _ = sz / 256 ^ k % 256 ^ (n + 1) := by rw [pow_succ, Nat.mul_comm]

theorem readSize_writeSize (mem : Bytes) (p : Place) (short : sz < 2 ^ 64) :
    readSize (writeSize mem p sz) p = sz := by
  have read := readBytes_digits (writeSize mem p sz) sz p.1 itemSize 0 p.2 fun i low => by
    rw [writeSize, fill_inside low, Nat.zero_add]
  rw [readSize, read, pow_zero, Nat.div_one]
  exact Nat.mod_eq_of_lt short

/-- The pool as its own functions leave it: the chunks up to the last one used hang
in the arena in order. -/
structure Sound (m : MpoolCtx) : Prop where
  whole : m.arenasz = 8 * m.arena.length
  room : max m.lastChunk m.currentChunk < m.arena.length
  count : m.chunks.length = max m.lastChunk m.currentChunk + 1
  index : ∀ i ≤ max m.lastChunk m.currentChunk, m.arena[i]? = some (some i)
  pos : m.currentPos ≤ m.chunksz
  small : m.chunksz < 2 ^ 64

variable {m next : MpoolCtx}

theorem Sound.init {chunksz : Nat} (mem : Bytes) (small : chunksz < 2 ^ 64) :
    Sound (mpoolCtxInit chunksz mem) := by
  refine ⟨rfl, Nat.one_pos, rfl, fun i low => ?_, Nat.zero_le _, small⟩
  obtain rfl : i = 0 := Nat.le_zero.mp low
  rfl

theorem Sound.reset (sound : Sound m) : Sound (mpoolCtxReset m) := by
  rcases sound with ⟨whole, room, count, index, -, small⟩
  have same : max (max m.lastChunk m.currentChunk) 0 = max m.lastChunk m.currentChunk := Nat.max_zero _
  refine ⟨whole, ?_, ?_, ?_, Nat.zero_le _, small⟩
  · rwa [mpoolCtxReset, same]
  · rwa [mpoolCtxReset, same]
  · rwa [mpoolCtxReset, same]

/-- What a new chunk changes. -/
structure Opened (sz : Nat) (m next : MpoolCtx) : Prop where
  sound : Sound next
  current : next.currentChunk = m.currentChunk + 1
  last : next.lastChunk = m.lastChunk
  pos : next.currentPos = 0
  chunksz : next.chunksz = m.chunksz
  mem : next.mem = m.mem
  chunks : next.chunks = if m.lastChunk ≤ m.currentChunk then m.chunks ++ [sz] else m.chunks

theorem growArena_spec (whole : m.arenasz = 8 * m.arena.length) (room : m.currentChunk ≤ m.arena.length)
    (positive : 0 < m.arena.length) :
    ∃ arena, growArena m = { m with arenasz := 8 * arena.length, arena := arena } ∧
      m.currentChunk < arena.length ∧ ∀ i < m.arena.length, arena[i]? = m.arena[i]? := by
  rw [growArena]
  by_cases full : m.currentChunk * 8 = m.arenasz
  · refine ⟨m.arena ++ List.replicate m.arena.length none, ?_, ?_, fun i low => List.getElem?_append_left low⟩
    · have double : m.arenasz * 2 = 8 * (m.arena ++ List.replicate m.arena.length none).length := by
        rw [List.length_append, List.length_replicate]
        omega
      rw [if_pos full, double]
    · rw [List.length_append, List.length_replicate]
      omega
  · exact ⟨m.arena, by rw [if_neg full, ← whole], by omega, fun _ _ => rfl⟩

theorem newChunk_spec (sound : Sound m) (sz : Nat) :
    ∃ next, newChunk sz m = .ok (m.currentChunk + 1, next) ∧ Opened sz m next := by
  rcases sound with ⟨whole, room, count, index, pos, small⟩
  let moved : MpoolCtx := { m with currentChunk := m.currentChunk + 1, currentPos := 0 }
  by_cases fresh : m.lastChunk ≤ m.currentChunk
  · have top : max m.lastChunk m.currentChunk = m.currentChunk := max_eq_right fresh
    rw [top] at room count index
    have next : max m.lastChunk (m.currentChunk + 1) = m.currentChunk + 1 := by omega
    rcases growArena_spec (m := moved) whole (by simp only [moved]; omega) (by simp only [moved]; omega) with
      ⟨arena, grown, inside, same⟩
    refine ⟨{ moved with
      arenasz := 8 * arena.length
      arena := arena.set (m.currentChunk + 1) (some (m.currentChunk + 1))
      chunks := m.chunks ++ [sz] }, ?_, ?_⟩
    · rw [newChunk, if_pos fresh]
      simp only [moved] at grown inside
      simp only [grown, if_pos inside, count]
      rfl
    · refine ⟨⟨?_, ?_, ?_, fun i low => ?_, Nat.zero_le _, small⟩, rfl, rfl, rfl, rfl, rfl, (if_pos fresh).symm⟩
      · simp only [List.length_set]
      · simp only [moved, next, List.length_set]
        exact inside
      · simp only [moved, next, List.length_append, List.length_singleton, count]
      · simp only [moved, next] at low
        simp only [List.getElem?_set]
        by_cases here : m.currentChunk + 1 = i
        · subst here
          rw [if_pos rfl, if_pos inside]
        · rw [if_neg here, same i (by simp only [moved]; omega)]
          exact index i (by omega)
  · have top : max m.lastChunk m.currentChunk = m.lastChunk := max_eq_left (by omega)
    have next : max m.lastChunk (m.currentChunk + 1) = m.lastChunk := max_eq_left (by omega)
    rw [top] at room count index
    refine ⟨moved, ?_, ?_⟩
    · have here := index (m.currentChunk + 1) (by omega)
      rw [newChunk, if_neg fresh]
      simp only [arenaAt, here]
      rfl
    · refine ⟨⟨whole, ?_, ?_, ?_, Nat.zero_le _, small⟩, rfl, rfl, rfl, rfl, rfl, (if_neg fresh).symm⟩
      · rwa [next]
      · rwa [next]
      · rwa [next]

/-- The size of the block does not wrap when the header is added. -/
def Whole (sz : Nat) : Prop := padded sz + itemSize < 2 ^ 64

theorem padded_eq (short : sz ≤ 2 ^ 64 - 16) : Whole sz ∧ sz ≤ padded sz := by
  rw [Whole, padded, itemSize]
  split <;> omega

theorem padded_lt (sz : Nat) : padded sz < 2 ^ 64 := Nat.mod_lt _ (by decide)

theorem mark_spec (debug : Bool) (b : Block) (m : MpoolCtx) (short : b.payload < 2 ^ 64) :
    ∃ mem, mark debug (b.chunk, b.offset) b.payload m = { m with mem := mem } ∧
      readSize mem (b.chunk, b.offset) = b.payload ∧
      ∀ chunk offset, ¬ b.Covers chunk offset → mem chunk offset = m.mem chunk offset := by
  have written := readSize_writeSize m.mem (b.chunk, b.offset) short
  have outside : ∀ chunk offset, ¬ b.Covers chunk offset →
      writeSize m.mem (b.chunk, b.offset) b.payload chunk offset = m.mem chunk offset := by
    intro chunk offset free
    apply fill_outside
    simp only [Block.Covers, Block.stop, not_and_or] at free
    simp only
    omega
  cases debug with
  | false => exact ⟨writeSize m.mem (b.chunk, b.offset) b.payload, rfl, written, outside⟩
  | true =>
      let mem := memset (writeSize m.mem (b.chunk, b.offset) b.payload) (b.chunk, b.offset + itemSize) 0xa5 b.payload
      refine ⟨mem, by simp only [mark, if_true, written, mem], ?_, fun chunk offset free => ?_⟩
      · have kept : readSize mem (b.chunk, b.offset) =
            readSize (writeSize m.mem (b.chunk, b.offset) b.payload) (b.chunk, b.offset) :=
          readBytes_congr itemSize b.offset fun i low high => fill_outside (.inr (.inl high))
        rw [kept, written]
      · rw [← outside chunk offset free]
        apply fill_outside
        simp only [Block.Covers, Block.stop, not_and_or] at free
        simp only
        omega

/-- The blocks lie in front of the place where the next one goes. -/
def Behind (m : MpoolCtx) (b : Block) : Prop :=
  b.chunk < m.currentChunk ∨ b.chunk = m.currentChunk ∧ b.stop ≤ m.currentPos

/-- An oversized request gets a chunk of its own; the chunks that are used again
after a reset are taken as they come. -/
def BigFits (sz : Nat) (m : MpoolCtx) : Prop :=
  m.chunksz < padded sz + itemSize → m.lastChunk ≤ m.currentChunk ∨
    ∃ s, m.chunks[m.currentChunk + 1]? = some s ∧ padded sz + itemSize ≤ s

/-- The block lies in the memory of its chunk. -/
def Contained (m : MpoolCtx) (b : Block) : Prop := ∃ s, m.chunks[b.chunk]? = some s ∧ b.stop ≤ s

/-- What handing out a block does to the pool. -/
structure Handed (sz : Nat) (m : MpoolCtx) (b : Block) (next : MpoolCtx) : Prop where
  sound : Sound next
  payload : b.payload = padded sz
  header : readSize next.mem (b.chunk, b.offset) = b.payload
  frame : ∀ chunk offset, ¬ b.Covers chunk offset → next.mem chunk offset = m.mem chunk offset
  behind : Behind next b
  keeps : ∀ c, Behind m c → Behind next c
  before : ∀ c, Behind m c → c.Before b
  chunksz : next.chunksz = m.chunksz
  grown : ∃ more, next.chunks = m.chunks ++ more ∧ ∀ s ∈ more, m.chunksz ≤ s
  inside : (∀ s ∈ m.chunks, m.chunksz ≤ s) → (Contained next b ↔ BigFits sz m)

theorem Opened.keeps (opened : Opened sz m next) {c : Block} (behind : Behind m c) : Behind next c := by
  have current := opened.current
  rcases behind with before | ⟨here, -⟩
  · exact .inl (by omega)
  · exact .inl (by omega)

theorem Opened.grown (opened : Opened sz m next) (large : m.chunksz ≤ sz) :
    ∃ more, next.chunks = m.chunks ++ more ∧ ∀ s ∈ more, m.chunksz ≤ s := by
  by_cases fresh : m.lastChunk ≤ m.currentChunk
  · refine ⟨[sz], opened.chunks.trans (if_pos fresh), fun s inside => ?_⟩
    rwa [List.mem_singleton.mp inside]
  · exact ⟨[], by rw [opened.chunks, if_neg fresh, List.append_nil], by simp⟩

/-- Blocks behind the place where the next one goes do not meet it. -/
theorem Behind.before {b c : Block} (behind : Behind m c) (chunk : b.chunk = m.currentChunk)
    (offset : b.offset = m.currentPos) : c.Before b := by
  rcases behind with before | ⟨here, stop⟩
  · exact .inl (by omega)
  · exact .inr (by omega)

theorem Sound.current_chunk (sound : Sound m) : ∃ s ∈ m.chunks, m.chunks[m.currentChunk]? = some s := by
  have inside : m.currentChunk < m.chunks.length := by
    have count := sound.count
    omega
  exact ⟨_, List.getElem_mem inside, List.getElem?_eq_getElem inside⟩

/-- A large block: it has the next chunk for itself. -/
theorem handed_big (debug : Bool) (sound : Sound m) (whole : Whole sz)
    (big : m.chunksz < padded sz + itemSize) :
    ∃ b next, mpoolMalloc debug sz m = .ok (b.data, next) ∧ Handed sz m b next := by
  have sz1 : (padded sz + itemSize) % 2 ^ 64 = padded sz + itemSize := Nat.mod_eq_of_lt whole
  rcases newChunk_spec sound (padded sz + itemSize) with ⟨first, opened, one⟩
  rcases newChunk_spec one.sound first.chunksz with ⟨second, opened', two⟩
  let b : Block := ⟨m.currentChunk + 1, 0, padded sz⟩
  rcases mark_spec debug b second (padded_lt sz) with ⟨mem, marked, header, frame⟩
  have stop : b.stop = padded sz + itemSize := by
    simp only [Block.stop, b]
    omega
  have current : second.currentChunk = m.currentChunk + 2 := by rw [two.current, one.current]
  have same : second.chunksz = m.chunksz := two.chunksz.trans one.chunksz
  rcases one.grown big.le with ⟨more, chunks, large⟩
  rcases two.grown le_rfl with ⟨more', chunks', large'⟩
  refine ⟨b, { second with mem := mem }, ?_, ?_⟩
  · rw [mpoolMalloc]
    simp only [sz1, if_pos big, opened, opened', bind, Except.bind, pure, Except.pure]
    rw [← marked]
    rfl
  · refine ⟨{ two.sound with }, rfl, header, fun chunk offset free => ?_, ?_, fun c behind => ?_,
      fun c behind => ?_, same, ⟨more ++ more', ?_, ?_⟩, fun roomy => ?_⟩
    · exact (frame chunk offset free).trans (by rw [two.mem, one.mem])
    · exact .inl (by simp only [b, current]; omega)
    · exact two.keeps (one.keeps behind)
    · exact (one.keeps behind).before one.current.symm one.pos.symm
    · rw [chunks', chunks, List.append_assoc]
    · intro s inside
      rcases List.mem_append.mp inside with early | late
      · exact large s early
      · exact one.chunksz ▸ large' s late
    · have length := sound.count
      have settled : second.chunks[m.currentChunk + 1]? = first.chunks[m.currentChunk + 1]? := by
        rw [chunks']
        apply List.getElem?_append_left
        have count := one.sound.count
        rw [one.current] at count
        omega
      rw [Contained, BigFits, stop]
      by_cases fresh : m.lastChunk ≤ m.currentChunk
      · have last : first.chunks[m.currentChunk + 1]? = some (padded sz + itemSize) := by
          rw [max_eq_right fresh] at length
          rw [one.chunks, if_pos fresh, ← length]
          exact List.getElem?_concat_length
        exact iff_of_true ⟨_, settled.trans last, le_rfl⟩ fun _ => .inl fresh
      · have old : second.chunks[b.chunk]? = m.chunks[m.currentChunk + 1]? := by
          rw [settled, one.chunks, if_neg fresh]
        simp only [old, big, true_imp_iff, fresh, false_or]

/-- The chunk in which a block of the usual size is put. -/
theorem pickChunk_spec (sound : Sound m) (fits : padded sz + itemSize ≤ m.chunksz) :
    ∃ mid, pickChunk (padded sz + itemSize) m = .ok (mid.currentChunk, mid) ∧ Sound mid ∧
      mid.currentPos + (padded sz + itemSize) ≤ mid.chunksz ∧ mid.chunksz = m.chunksz ∧
      mid.mem = m.mem ∧ (∀ c, Behind m c → Behind mid c) ∧
      ∃ more, mid.chunks = m.chunks ++ more ∧ ∀ s ∈ more, m.chunksz ≤ s := by
  have pos := sound.pos
  have small := sound.small
  have left : (m.chunksz + (2 ^ 64 - m.currentPos)) % 2 ^ 64 = m.chunksz - m.currentPos := by omega
  rw [pickChunk, left]
  by_cases full : m.chunksz - m.currentPos < padded sz + itemSize
  · rcases newChunk_spec sound m.chunksz with ⟨mid, run, opened⟩
    refine ⟨mid, ?_, opened.sound, ?_, opened.chunksz, opened.mem, fun c => opened.keeps, opened.grown le_rfl⟩
    · rw [if_pos full, run, opened.current]
    · rwa [opened.pos, opened.chunksz, Nat.zero_add]
  · refine ⟨m, ?_, sound, by omega, rfl, rfl, fun _ => id, [], by simp, by simp⟩
    have here := sound.index m.currentChunk (Nat.le_max_right ..)
    rw [if_neg full]
    simp only [arenaAt, here]
    rfl

/-- A block of the usual size goes behind the last one. -/
theorem handed_small (debug : Bool) (sound : Sound m) (whole : Whole sz)
    (usual : padded sz + itemSize ≤ m.chunksz) :
    ∃ b next, mpoolMalloc debug sz m = .ok (b.data, next) ∧ Handed sz m b next := by
  have sz1 : (padded sz + itemSize) % 2 ^ 64 = padded sz + itemSize := Nat.mod_eq_of_lt whole
  rcases pickChunk_spec sound usual with ⟨mid, picked, sound', room, same, mem, keeps, grown⟩
  let b : Block := ⟨mid.currentChunk, mid.currentPos, padded sz⟩
  let moved : MpoolCtx := { mid with currentPos := mid.currentPos + (padded sz + itemSize) }
  rcases mark_spec debug b moved (padded_lt sz) with ⟨mem', marked, header, frame⟩
  have stop : b.stop = moved.currentPos := by
    simp only [Block.stop, b, moved]
    omega
  refine ⟨b, { moved with mem := mem' }, ?_, ?_⟩
  · rw [mpoolMalloc]
    simp only [sz1, if_neg (not_lt.mpr usual), picked, bind, Except.bind, pure, Except.pure]
    rw [← marked]
    rfl
  · refine ⟨{ sound' with pos := room }, rfl, header, fun chunk offset free => ?_, .inr ⟨rfl, stop.le⟩,
      fun c behind => ?_, fun c behind => (keeps c behind).before rfl rfl, same, grown, fun roomy => ?_⟩
    · exact (frame chunk offset free).trans (by simp only [moved, mem])
    · rcases keeps c behind with before | ⟨here, below⟩
      · exact .inl before
      · exact .inr ⟨here, by simp only [moved]; omega⟩
    · have usual' : ¬ m.chunksz < padded sz + itemSize := not_lt.mpr usual
      simp only [BigFits, usual', false_imp_iff, iff_true]
      rcases sound'.current_chunk with ⟨s, inside, here⟩
      refine ⟨s, here, ?_⟩
      have large : m.chunksz ≤ s := by
        rcases grown with ⟨more, chunks, large⟩
        rw [chunks] at inside
        rcases List.mem_append.mp inside with old | new
        · exact roomy s old
        · exact large s new
      simp only [moved] at stop
      omega

theorem mpoolMalloc_spec (debug : Bool) (sound : Sound m) (whole : Whole sz) :
    ∃ b next, mpoolMalloc debug sz m = .ok (b.data, next) ∧ Handed sz m b next := by
  by_cases big : m.chunksz < padded sz + itemSize
  · exact handed_big debug sound whole big
  · exact handed_small debug sound whole (not_lt.mp big)

end MnCommon.Mpool
