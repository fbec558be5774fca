import MnCommon.Bytestream.Transfer
import MnCommon.Memory.Run

/-! The two cursors of a stream over whole runs. -/

namespace MnCommon.Bytestream

open Memory (Fault Along)

/-- The functions that a stream may have as its `read_more`. -/
inductive Source where
  | readMore
  | recvMore
  deriving DecidableEq, Repr

inductive StreamOp where
  | readMore (sz : Int)
  | recvMore (sz : Int)
  | write (sz : UInt64)
  | stderrWrite (sz : UInt64)
  | send (sz : UInt64)
  | consumeData (source : Source)
  | nprintf (sz : UInt64) (text : Option Text)
  | vnprintf (sz : UInt64) (text : Option Text)
  | cat (piece : Piece)
  | rewind
  | recycle (ngrowsz start : Int)

variable {E : Type} (sys : System E)

def Source.read : Source → Int → World E → Except Fault (Answer E)
  | .readMore => bytestreamReadMore sys
  | .recvMore => bytestreamRecvMore sys

/-- `bytestream_consume_data` answers zero exactly if there are new data. -/
def step : StreamOp → World E → Except Fault (Answer E)
  | .readMore sz, w => bytestreamReadMore sys sz w
  | .recvMore sz, w => bytestreamRecvMore sys sz w
  | .write sz, w => .ok (bytestreamWrite sys sz.toNat w)
  | .stderrWrite sz, w => .ok (bytestreamStderrWrite sys sz.toNat w)
  | .send sz, w => .ok (bytestreamSend sys sz.toNat w)
  | .consumeData source, w => do
      let (res, w) ← bytestreamConsumeData (source.read sys) w
      return (if res = .ready then 0 else -1, w)
  | .nprintf sz text, w => bytestreamNprintf sys sz.toNat text w
  | .vnprintf sz text, w => bytestreamVnprintf sys sz.toNat text w
  | .cat piece, w => bytestreamCat sys piece w
  | .rewind, w => .ok (0, bytestreamRewind w)
  | .recycle ngrowsz start, w => bytestreamRecycle sys ngrowsz start w

/-- The operations that move data between the stream and a descriptor. -/
def StreamOp.Transfer : StreamOp → Prop
  | .readMore _ | .recvMore _ | .write _ | .stderrWrite _ | .send _ | .consumeData _ => True
  | _ => False

/-- The calls that keep the cursors in order. -/
def Heeds : StreamOp → World E → Prop
  | .readMore sz, w => 0 ≤ sz ∧ w.stream.eod + sz < 2 ^ 63
  | .recvMore sz, w => 0 ≤ sz ∧ w.stream.eod + sz < 2 ^ 63
  | .write sz, _ => sz.toNat < 2 ^ 63
  | .stderrWrite sz, _ => sz.toNat < 2 ^ 63
  | .send sz, w => sz.toNat < 2 ^ 63 ∧ (w.stream.pos + sz.toNat ≤ w.stream.eod →
      (sys.send (outgoing w.stream sz.toNat) sz.toNat w.env).1 ≠ none)
  | .consumeData _, w => w.stream.eod + w.stream.growsz < 2 ^ 63
  | .nprintf sz text, w => ∃ t, text = some t ∧ Fits sz.toNat (printed sz.toNat t) w.stream
  | .vnprintf sz text, w => ∃ t, text = some t ∧ Fits sz.toNat (printed sz.toNat t) w.stream
  | .cat _, _ => True
  | .rewind, _ => True
  | .recycle ngrowsz start, w => start ≤ w.stream.pos ∧ (0 ≤ start ∨
      start - start.tmod sys.pagesize ≤ w.stream.growsz * ngrowsz)

/-- A stream that has just been set up. -/
inductive Started (w : World E) : Prop where
  | init (growsz : Int) (env : E) (low : -2 ^ 63 ≤ growsz) (high : growsz < 2 ^ 63)
      (done : bytestreamInit sys growsz env = (true, w))
  | initData (data : Piece) (growsz : Int) (env : E) (high : growsz < 2 ^ 63)
      (done : bytestreamInitData data growsz env = w)

/-- The cursors lie in the buffer, in order. -/
def InOrder (s : MnByteStream) : Prop := 0 ≤ s.pos ∧ s.pos ≤ s.eod ∧ s.eod ≤ s.sz

/-- The operation succeeds, keeps the cursors in order, and moves none of them if
it is a transfer that fails. -/
def Upholds (op : StreamOp) (w : World E) : Prop :=
  ∃ answer next, step sys op w = .ok (answer, next) ∧ InOrder next.stream ∧
    (op.Transfer → answer < 0 → next.stream.pos = w.stream.pos ∧ next.stream.eod = w.stream.eod)

structure Cursors (s : MnByteStream) : Prop where
  buffered : Buffered s
  nonneg : 0 ≤ s.pos
  order : s.pos ≤ s.eod
  size : 0 ≤ s.sz
  step : 0 ≤ s.growsz

variable {sys} {w : World E} {s next : MnByteStream} {bytes : List UInt8} {n : Int}

theorem Cursors.inOrder (cursors : Cursors s) : InOrder s := by
  have inside := cursors.buffered.inside
  have memory := cursors.buffered.memory
  have size := cursors.size
  exact ⟨cursors.nonneg, cursors.order, by omega⟩

theorem Cursors.roomier (cursors : Cursors s) (roomier : Roomier s next) : Cursors next := by
  rcases cursors with ⟨-, nonneg, order, size, step⟩
  refine ⟨roomier.buffered, ?_, ?_, roomier.positive size, ?_⟩
  · rwa [roomier.pos]
  · rwa [roomier.pos, roomier.eod]
  · rwa [roomier.growsz]

theorem Cursors.extended (cursors : Cursors s) (extended : Extended s next bytes) : Cursors next := by
  rcases cursors with ⟨-, nonneg, order, size, step⟩
  refine ⟨extended.buffered, ?_, ?_, extended.positive size, ?_⟩
  · rwa [extended.pos]
  · rw [extended.pos, extended.eod]
    omega
  · rwa [extended.growsz]

theorem Cursors.advanced (cursors : Cursors s) (advanced : Advanced s next n) : Cursors next := by
  rcases advanced with ⟨rfl, moved, within⟩
  rcases cursors with ⟨buffered, nonneg, order, size, step⟩
  refine ⟨{ buffered with }, ?_, within, size, step⟩
  simp only
  omega

theorem Cursors.shifted (cursors : Cursors s) (shifted : Shifted s next n) (low : n ≤ s.pos) :
    Cursors next := by
  rcases cursors with ⟨-, nonneg, order, size, step⟩
  refine ⟨shifted.buffered, ?_, ?_, shifted.positive size, ?_⟩
  · rw [shifted.pos]
    omega
  · rw [shifted.pos, shifted.eod]
    omega
  · rwa [shifted.growsz]

theorem Cursors.rewound (cursors : Cursors s) : Cursors { s with pos := 0, eod := 0 } := by
  rcases cursors with ⟨buffered, nonneg, order, size, step⟩
  exact ⟨{ buffered with nonneg := le_rfl, inside := by simp }, le_rfl, le_rfl, size, step⟩

theorem Started.cursors (started : Started sys w) (nonneg : 0 ≤ w.stream.growsz) : Cursors w.stream := by
  cases started with
  | init growsz env low high done =>
      have fresh := (bytestreamInit_fresh done).1
      have size : 0 ≤ w.stream.sz := fresh.size.trans fresh.step.symm ▸ nonneg
      exact ⟨fresh.buffered low, fresh.pos.ge, (fresh.pos.trans fresh.eod.symm).le, size, nonneg⟩
  | initData data growsz env high done =>
      subst done
      have short := data.short
      refine ⟨⟨?_, le_rfl, ?_, ?_, ?_, high, ?_⟩, le_rfl, ?_, ?_, nonneg⟩
      all_goals simp only [bytestreamInitData]
      all_goals omega

/-- A read, whichever call makes it. -/
theorem transferIn_cursors {call : Nat → E → Option (List UInt8) × E} {sz : Int}
    (cursors : Cursors w.stream) (low : 0 ≤ sz) (high : w.stream.eod + sz < 2 ^ 63) :
    ∃ answer next, transferIn sys call sz w = .ok (answer, next) ∧ Cursors next.stream ∧
      (answer ≤ 0 → next.stream.pos = w.stream.pos ∧ next.stream.eod = w.stream.eod) := by
  have nonneg := cursors.buffered.nonneg
  have fits := need_or_room cursors.buffered cursors.size low (by omega)
  rcases transferIn_spec sys cursors.buffered low (by omega) fits with ⟨answer, next, run, effect⟩
  refine ⟨answer, next, run, ?_⟩
  rcases effect with ⟨-, roomier⟩ | ⟨bytes, rfl, extended⟩
  · exact ⟨cursors.roomier roomier, fun _ => ⟨roomier.pos, roomier.eod⟩⟩
  · refine ⟨cursors.extended extended, fun none => ⟨extended.pos, ?_⟩⟩
    rw [extended.eod]
    omega

variable (sys) in
theorem Source.read_cursors (source : Source) (sz : Int) (cursors : Cursors w.stream) (low : 0 ≤ sz)
    (high : w.stream.eod + sz < 2 ^ 63) :
    ∃ answer next, source.read sys sz w = .ok (answer, next) ∧ Cursors next.stream ∧
      (answer ≤ 0 → next.stream.pos = w.stream.pos ∧ next.stream.eod = w.stream.eod) := by
  cases source with
  | readMore => exact transferIn_cursors cursors low high
  | recvMore => exact transferIn_cursors cursors low high

variable (sys) in
theorem consumeData_cursors (source : Source) (cursors : Cursors w.stream)
    (high : w.stream.eod + w.stream.growsz < 2 ^ 63) :
    ∃ res next, bytestreamConsumeData (source.read sys) w = .ok (res, next) ∧ Cursors next.stream ∧
      (res ≠ .ready → next.stream.pos = w.stream.pos ∧ next.stream.eod = w.stream.eod) := by
  have order := cursors.order
  have step := cursors.step
  let need := w.stream.pos + w.stream.growsz - w.stream.eod
  have amount : 0 ≤ (if need ≤ 0 then w.stream.growsz else need) := by omega
  have below : w.stream.eod + (if need ≤ 0 then w.stream.growsz else need) < 2 ^ 63 := by omega
  rcases source.read_cursors sys _ cursors amount below with ⟨nread, next, run, after, same⟩
  rw [bytestreamConsumeData, run]
  rcases lt_trichotomy nread 0 with negative | zero | positive
  · refine ⟨.failed, next, ?_, after, fun _ => same negative.le⟩
    simp only [bind, Except.bind, if_neg negative.ne, if_pos negative]
    rfl
  · refine ⟨.eof, next, ?_, after, fun _ => same zero.le⟩
    simp only [bind, Except.bind, if_pos zero]
    rfl
  · refine ⟨.ready, next, ?_, after, fun wrong => absurd rfl wrong⟩
    simp only [bind, Except.bind, if_neg positive.ne', if_neg positive.not_gt]
    rfl

theorem appendFormatted_cursors {sz : UInt64} {text : Text} (cursors : Cursors w.stream)
    (fits : Fits sz.toNat (printed sz.toNat text) w.stream) :
    ∃ answer next, appendFormatted sys sz.toNat (some text) w = .ok (answer, next) ∧
      Cursors next.stream := by
  rcases appendFormatted_spec sys cursors.buffered sz.toNat_lt fits with
    ⟨answer, next, run, ⟨-, -, roomier⟩ | ⟨-, -, extended⟩⟩
  · exact ⟨answer, next, run, cursors.roomier roomier⟩
  · exact ⟨answer, next, run, cursors.extended extended⟩

/-- What a write leaves behind, whichever call makes it. -/
theorem Cursors.written {result : Answer E} (cursors : Cursors w.stream)
    (effect : result.1 = -1 ∧ result.2.stream = w.stream ∨ Advanced w.stream result.2.stream result.1) :
    Cursors result.2.stream ∧
      (result.1 < 0 → result.2.stream.pos = w.stream.pos ∧ result.2.stream.eod = w.stream.eod) := by
  rcases effect with ⟨-, same⟩ | advanced
  · rw [same]
    exact ⟨cursors, fun _ => ⟨rfl, rfl⟩⟩
  · refine ⟨cursors.advanced advanced, fun negative => ?_⟩
    exact absurd advanced.nonneg (not_le.mpr negative)

theorem step_cursors (op : StreamOp) (cursors : Cursors w.stream) (heeds : Heeds sys op w) :
    ∃ answer next, step sys op w = .ok (answer, next) ∧ Cursors next.stream ∧
      (op.Transfer → answer < 0 → next.stream.pos = w.stream.pos ∧ next.stream.eod = w.stream.eod) := by
  cases op with
  | readMore sz | recvMore sz =>
      rcases transferIn_cursors cursors heeds.1 heeds.2 with ⟨answer, next, run, after, same⟩
      exact ⟨answer, next, run, after, fun _ negative => same negative.le⟩
  | write sz =>
      rcases cursors.written (bytestreamWrite_spec sys heeds) with ⟨after, same⟩
      exact ⟨_, _, rfl, after, fun _ => same⟩
  | stderrWrite sz =>
      rcases cursors.written (bytestreamStderrWrite_spec sys heeds) with ⟨after, same⟩
      exact ⟨_, _, rfl, after, fun _ => same⟩
  | send sz =>
      rcases cursors.written (bytestreamSend_spec sys heeds.1 heeds.2) with ⟨after, same⟩
      exact ⟨_, _, rfl, after, fun _ => same⟩
  | consumeData source =>
      rcases consumeData_cursors sys source cursors heeds with ⟨res, next, run, after, same⟩
      refine ⟨if res = .ready then 0 else -1, next, ?_, after, fun _ negative => ?_⟩
      · simp only [step, run, bind, Except.bind, pure, Except.pure]
      · refine same fun ready => ?_
        rw [if_pos ready] at negative
        exact absurd negative (lt_irrefl 0)
  | nprintf sz text | vnprintf sz text =>
      rcases heeds with ⟨t, rfl, fits⟩
      rcases appendFormatted_cursors cursors fits with ⟨answer, next, run, after⟩
      exact ⟨answer, next, run, after, False.elim⟩
  | cat piece =>
      have short := piece.short
      have room : 0 < need piece.bytes.length w.stream ∨ _ :=
        need_or_room cursors.buffered cursors.size (by omega) (by omega)
      rcases bytestreamCat_spec sys cursors.buffered (room.imp_right .inr) with
        ⟨answer, next, run, effect⟩
      refine ⟨answer, next, run, ?_, False.elim⟩
      rcases effect with ⟨-, -, roomier⟩ | ⟨-, extended⟩
      · exact cursors.roomier roomier
      · exact cursors.extended extended
  | rewind => exact ⟨0, _, rfl, cursors.rewound, False.elim⟩
  | recycle ngrowsz start =>
      rcases bytestreamRecycle_spec sys cursors.buffered cursors.order heeds.1 heeds.2 with
        ⟨n, next, run, -, -, low, shifted, -⟩
      have nonneg := cursors.nonneg
      have before := heeds.1
      exact ⟨n, next, run, cursors.shifted shifted (by omega), False.elim⟩

theorem step_upholds (op : StreamOp) (w : World E) (cursors : Cursors w.stream) (heeds : Heeds sys op w) :
    Upholds sys op w := by
  rcases step_cursors op cursors heeds with ⟨answer, next, run, after, same⟩
  exact ⟨answer, next, run, after.inOrder, same⟩

theorem step_keeps (op : StreamOp) (w : World E) (answer : Int) (next : World E)
    (cursors : Cursors w.stream) (heeds : Heeds sys op w) (stepped : step sys op w = .ok (answer, next)) :
    Cursors next.stream := by
  rcases step_cursors op cursors heeds with ⟨answer', next', run, after, -⟩
  rcases Prod.mk.inj (Except.ok.inj (stepped.symm.trans run)) with ⟨-, rfl⟩
  exact after

/-- A system without errors but for those of `send`. -/
def deafSystem : System Unit where
  pagesize := 4096
  pagesize_pos := page_pos
  realloc _ env := (true, env)
  junk _ _ := 0
  read _ env := (some [], env)
  recv _ env := (some [], env)
  write bytes _ env := (some bytes.length, env)
  send _ _ env := (none, env)

/-- Three bytes and an attempt to send them. -/
def deafOps : List StreamOp := [.cat ⟨[1, 2, 3], by decide⟩, .send 3]

def emptyStream : MnByteStream := { data := List.replicate 8 0, sz := 8, growsz := 8, eod := 0, pos := 0 }

theorem emptyStream_started : Started deafSystem ⟨emptyStream, ()⟩ :=
  .init 8 () (by decide) (by decide) rfl

end MnCommon.Bytestream
