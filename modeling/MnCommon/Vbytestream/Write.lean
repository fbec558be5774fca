import MnCommon.Vbytestream.Append

/-! What `vbytestream_write` sends. -/

namespace MnCommon.Vbytestream

open Memory (Fault)
open Bytestream (Text toSize)

variable {E : Type} {sys : System E} {w : World E} {s : Mnvbytestream} {full tail front slots rest : List Iovec}

theorem gather_closed (closed : ∀ slot ∈ slots, slot.Closed) : gather slots = .ok (slots.flatMap Iovec.segment) := by
  induction slots with
  | nil => rfl
  | cons slot slots ih =>
      rcases List.forall_mem_cons.mp closed with ⟨⟨b, base, inside⟩, others⟩
      have segment : slot.segment = b.data.take slot.iovLen := by rw [Iovec.segment, Iovec.bytes, base]
      rw [gather, base]
      simp only [if_pos inside, ih others, bind, Except.bind, List.flatMap_cons, segment]
      rfl

/-- What a call makes of the answer of `writev`. -/
def sent (bytes : List UInt8) (s : Mnvbytestream) (answer : Option Nat × E) : Option Nat × World E :=
  (answer.1.map (min · bytes.length), ⟨s, answer.2⟩)

variable (sys) in
theorem writeSlots_closed {count : Int} (split : w.stream.iov = front ++ (slots ++ rest))
    (pos : w.stream.pos.idx = front.length) (size : count = slots.length) (some : 0 < count)
    (closed : ∀ slot ∈ slots, slot.Closed) :
    writeSlots sys count w =
      .ok (sent (slots.flatMap Iovec.segment) w.stream (sys.writev (slots.flatMap Iovec.segment) w.env)) := by
  have chosen : slotsFrom w.stream.pos.idx count w.stream.iov = slots := by
    rw [slotsFrom, pos, split, if_pos (Int.natCast_nonneg _), Int.toNat_natCast, List.drop_left, size,
      Int.toNat_natCast, List.take_left]
  have within : w.stream.pos.idx + count ≤ w.stream.iov.length := by
    rw [split, List.length_append, List.length_append]
    omega
  cases slots with
  | nil =>
      rw [size] at some
      exact absurd some (lt_irrefl _)
  | cons slot others =>
      rw [writeSlots, chosen, split, pos, List.cons_append, arrayGet_end, ← List.cons_append, ← split, ← pos]
      simp only [if_pos within, gather_closed closed, bind, Except.bind]
      rfl

/-- What a write makes of the answer of `writev`: the position moves to the mark,
however much has been taken. -/
def written (bytes : List UInt8) (s : Mnvbytestream) (answer : Option Nat × E) : Answer E :=
  match answer.1 with
  | none => (-1, ⟨s, answer.2⟩)
  | some n => ((min n bytes.length : Nat), ⟨{ s with pos :=
      { idx := s.eod.idx, offt := s.eod.offt, total := s.pos.total + (min n bytes.length : Nat) } }, answer.2⟩)

theorem put_back {edge closed : Iovec} (laid : Laid s full (edge :: rest)) :
    (s.put s.eod.idx closed).put s.eod.idx edge = s := by
  have again : ((s.put s.eod.idx closed).put s.eod.idx edge).iov = s.iov := by
    rw [put_end (put_end laid.split laid.idx closed) laid.idx edge, laid.split]
  exact congrArg (fun iov => { s with iov := iov }) again

/-- The edge is closed for the time of the call, and is as before afterwards. -/
theorem writeEdge_laid {b : Mnbytes} {count : Int} {p : Nat}
    (laid : Laid w.stream full ({ iovBase := some b, iovLen := b.sz } :: rest)) (filled : 0 < w.stream.eod.offt)
    (more : w.stream.eod.offt < b.sz) (small : w.stream.eod.offt < 2 ^ 64) (pos : w.stream.pos.idx = p)
    (behind : p ≤ full.length) (size : count = full.length + 1 - p) :
    writeEdge sys count w =
      .ok (sent (contentFrom p w.stream) w.stream (sys.writev (contentFrom p w.stream) w.env)) := by
  let closed : Iovec := { iovBase := some b, iovLen := toSize w.stream.eod.offt }
  have width : (toSize w.stream.eod.offt : Int) = w.stream.eod.offt :=
    Bytestream.toSize_of_range filled.le small
  have inside := b.whole
  have used : closed.Closed := by
    refine ⟨b, rfl, ?_⟩
    change toSize w.stream.eod.offt ≤ b.data.length
    omega
  have segment : closed.segment = b.data.take w.stream.eod.offt.toNat :=
    congrArg (fun n => b.data.take n) (by omega : toSize w.stream.eod.offt = w.stream.eod.offt.toNat)
  have closes : ∀ slot ∈ full.drop p ++ [closed], slot.Closed := by
    intro slot there
    rcases List.mem_append.mp there with old | new
    · exact laid.closed slot (List.mem_of_mem_drop old)
    · exact List.mem_singleton.mp new ▸ used
  have split : (w.stream.put w.stream.eod.idx closed).iov = full.take p ++ ((full.drop p ++ [closed]) ++ rest) := by
    rw [put_end laid.split laid.idx closed, ← List.append_assoc, ← List.append_assoc, List.take_append_drop,
      List.append_assoc]
    rfl
  have bytes : (full.drop p ++ [closed]).flatMap Iovec.segment = contentFrom p w.stream := by
    rw [contentFrom_eq laid.split laid.idx, List.flatMap_append, List.flatMap_singleton, segment]
    rfl
  have front : (full.take p).length = p := List.length_take_of_le behind
  have length : ((full.drop p ++ [closed]).length : Int) = full.length + 1 - p := by
    rw [List.length_append, List.length_drop, List.length_singleton]
    omega
  have positive : 0 < count := by omega
  have call := writeSlots_closed sys (w := ⟨w.stream.put w.stream.eod.idx closed, w.env⟩) split
    (pos.trans (by rw [front])) (by omega) positive closes
  rw [bytes] at call
  rw [writeEdge, laid.split, laid.idx, arrayGet_end, ← laid.idx]
  simp only [closed] at call
  simp only [call, sent, bind, Except.bind]
  exact congrArg (fun s => Except.ok (_, (⟨s, _⟩ : World E))) (put_back laid)

variable (sys) in
theorem write_laid {p : Nat} (laid : Laid w.stream full tail) (pos : w.stream.pos.idx = p) (behind : p ≤ full.length)
    (some : 0 < w.stream.eod.idx + w.stream.part - w.stream.pos.idx)
    (few : w.stream.eod.idx + w.stream.part - w.stream.pos.idx < sys.iovMax) :
    vbytestreamWrite sys w =
      .ok (written (contentFrom p w.stream) w.stream (sys.writev (contentFrom p w.stream) w.env)) := by
  have idx := laid.idx
  have call : writeOut sys (w.stream.eod.idx + w.stream.part - w.stream.pos.idx) w =
      .ok (sent (contentFrom p w.stream) w.stream (sys.writev (contentFrom p w.stream) w.env)) := by
    by_cases filled : 0 < w.stream.eod.offt
    · have one : w.stream.part = 1 := if_pos filled
      rcases laid.edge filled with ⟨b, rest, rfl, more, small⟩
      rw [writeOut, if_pos one]
      exact writeEdge_laid laid filled more (by omega) pos behind (by omega)
    · have zero : w.stream.part = 0 := if_neg filled
      have empty : w.stream.eod.offt = 0 := le_antisymm (not_lt.mp filled) laid.nonneg
      have split : w.stream.iov = full.take p ++ (full.drop p ++ tail) := by
        rw [← List.append_assoc, List.take_append_drop, laid.split]
      have bytes : (full.drop p).flatMap Iovec.segment = contentFrom p w.stream := by
        rw [contentFrom_eq laid.split laid.idx, empty, Int.toNat_zero, List.take_zero, List.append_nil]
      have length : ((full.drop p).length : Int) = full.length - p := by
        rw [List.length_drop]
        omega
      have front : (full.take p).length = p := List.length_take_of_le behind
      have closes : ∀ slot ∈ full.drop p, slot.Closed := fun slot there =>
        laid.closed slot (List.mem_of_mem_drop there)
      rw [writeOut, if_neg (by omega), ← bytes]
      exact writeSlots_closed sys split (pos.trans (by rw [front])) (by omega) some closes
  rw [vbytestreamWrite]
  simp only [if_neg (not_or.mpr ⟨not_le.mpr some, not_le.mpr few⟩), call, bind, Except.bind, sent, written]
  cases (sys.writev (contentFrom p w.stream) w.env).1 with
  | none => rfl
  | some n =>
      have moved : w.stream.pos.idx + (w.stream.eod.idx + w.stream.part - w.stream.pos.idx - w.stream.part) =
          w.stream.eod.idx := by omega
      simp only [Option.map_some, moved]
      rfl

end MnCommon.Vbytestream
