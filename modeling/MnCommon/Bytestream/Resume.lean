import MnCommon.Bytestream.Lines

/-! Calling `bytestream_consume_lines` again after the callback has stopped it. -/

namespace MnCommon.Bytestream

open Memory (Fault)

variable {E A : Type}

/-- A client that calls again until there are no more data. -/
def consumeAll (sys : System E) (readMore : Int → World E → Except Fault (Answer E))
    (linecb : MnByteStream → ByteRange → A → Int × A) (fuel : Nat) :
    Nat → World E → A → Except Fault (World E × A)
  | 0, _, _ => .error .outOfFuel
  | calls + 1, w, acc => do
      let (res, w, acc) ← bytestreamConsumeLines sys readMore linecb fuel w acc
      if res = 0 then
        return (w, acc)
      else
        consumeAll sys readMore linecb fuel calls w acc

/-- A callback that looks at the bytes of the line only. -/
def byContents (cb : List UInt8 → A → Int × A) : MnByteStream → ByteRange → A → Int × A :=
  fun s line a => cb (slice s.data line.start line.stop) a

/-- The callback stops at none of the lines. -/
def Quiet (cb : List UInt8 → A → Int × A) : List (List UInt8) → A → Prop
  | [], _ => True
  | line :: rest, a => (cb line a).1 = 0 ∧ Quiet cb rest (cb line a).2

variable {cb : List UInt8 → A → Int × A} {a b : A} {passed : List (List UInt8)} {res : Int}

theorem Quiet.left {more : List (List UInt8)} (quiet : Quiet cb (passed ++ more) a) : Quiet cb passed a := by
  induction passed generalizing a with
  | nil => trivial
  | cons line rest ih => exact ⟨quiet.1, ih quiet.2⟩

theorem Ran.quiet_iff (ran : Ran (byContents cb) a passed res b) : res = 0 ↔ Quiet cb passed a := by
  induction ran with
  | done a => exact iff_of_true rfl trivial
  | stop s line a stops => exact iff_of_false stops fun quiet => stops quiet.1
  | more s line silent later ih =>
      constructor
      · intro zero
        exact ⟨silent, ih.mp zero⟩
      · intro quiet
        exact ih.mpr quiet.2

variable (plan : Plan) (source : Source) {w : World Feed} {growsz : Int} {bound fuel : Nat}
  (linecb : MnByteStream → ByteRange → A → Int × A)

/-- A call on a stream that has been left by another one, or a fresh one. -/
theorem consumeLines_spec (seen : List (List UInt8)) (a : A) (enough : bound < fuel)
    (reading : Reading growsz bound { start := w.stream.pos, stop := 0 } w) :
    ∃ res final passed a', bytestreamConsumeLines plan.system (source.read plan.system) (recording linecb) fuel w
        (seen, a) = .ok (res, final, (seen ++ passed, a')) ∧ Ran linecb a passed res a' ∧
      (res = 0 → passed <+: lines (left { start := w.stream.pos, stop := 0 } w) ∧
        (final.env.refused = false ∨ plan.Ample bound growsz →
          passed = lines (left { start := w.stream.pos, stop := 0 } w))) ∧
      (res ≠ 0 → Stopped growsz bound passed (lines (left { start := w.stream.pos, stop := 0 } w)) final) :=
  lineLoop_spec linecb plan source seen a reading (reading.pending_le.trans_lt enough)

/-- The line at which a call has stopped comes again, as an empty one. -/
theorem Stopped.again {all : List (List UInt8)} {final : World Feed} (stopped : Stopped growsz bound passed all final) :
    (lines (left { start := final.stream.pos, stop := 0 } final)).length + passed.length = all.length + 1 := by
  rcases stopped with ⟨-, rest, mark, account⟩
  have clean : 10 ∉ ([] : List UInt8) := by simp
  have empty : lines (10 :: rest) = [] :: lines rest := lines_cons rest clean
  rw [mark, empty, account, List.length_cons, List.length_append]
  omega

/-- Over all the calls every line comes at least once, so that a stop shows in the
number of lines. -/
theorem consumeAll_length {calls : Nat} {seen : List (List UInt8)} {final : World Feed} {all : List (List UInt8)}
    (enough : bound < fuel) (ample : plan.Ample bound growsz)
    (reading : Reading growsz bound { start := w.stream.pos, stop := 0 } w)
    (run : consumeAll plan.system (source.read plan.system) (recording linecb) fuel calls w (seen, a) =
      .ok (final, (all, b))) :
    seen.length + (lines (left { start := w.stream.pos, stop := 0 } w)).length ≤ all.length := by
  induction calls generalizing w seen a with
  | zero => cases run
  | succ calls ih =>
      rcases consumeLines_spec plan source linecb seen a enough reading with
        ⟨res, next, passed, a', call, -, finished, stopped⟩
      rw [consumeAll, call] at run
      simp only [bind, Except.bind] at run
      by_cases zero : res = 0
      · rw [if_pos zero] at run
        cases run
        rw [(finished zero).2 (.inr ample), List.length_append]
      · rw [if_neg zero] at run
        have resting := stopped zero
        have later := ih resting.1 run
        have again := resting.again
        rw [List.length_append] at later
        omega

/-- The calls taken together pass on the lines of the input exactly if the callback
stops none of them. -/
theorem consumeAll_lines_iff {bytes : List UInt8} (step : 0 < growsz) (high : growsz < 2 ^ 63)
    (cb : List UInt8 → A → Int × A) (a : A)
    (init : bytestreamInit plan.system growsz ⟨bytes, 0, false⟩ = (true, w)) (enough : bytes.length < fuel)
    (ample : plan.Ample bytes.length growsz) :
    (∃ calls final a', consumeAll plan.system (source.read plan.system) (recording (byContents cb)) fuel calls w
      ([], a) = .ok (final, (lines bytes, a'))) ↔ Quiet cb (lines bytes) a := by
  rcases init_reading plan step high init with ⟨reading, all⟩
  rcases consumeLines_spec plan source (byContents cb) [] a enough reading with
    ⟨res, next, passed, a', call, ran, finished, stopped⟩
  rw [all] at finished stopped
  constructor
  · rintro ⟨calls, final, b, run⟩
    cases calls with
    | zero => cases run
    | succ calls =>
        rw [consumeAll, call] at run
        simp only [bind, Except.bind] at run
        by_cases zero : res = 0
        · rw [← (finished zero).2 (.inr ample)]
          exact ran.quiet_iff.mp zero
        · rw [if_neg zero] at run
          have resting := stopped zero
          have enough' := consumeAll_length plan source _ enough ample resting.1 run
          have again := resting.again
          rw [List.nil_append] at enough'
          omega
  · intro quiet
    have zero : res = 0 := by
      by_contra nonzero
      rcases stopped nonzero with ⟨-, rest, -, account⟩
      rw [account] at quiet
      exact nonzero (ran.quiet_iff.mpr quiet.left)
    refine ⟨1, next, a', ?_⟩
    rw [consumeAll, call, ← (finished zero).2 (.inr ample)]
    simp only [bind, Except.bind, if_pos zero]
    rfl

/-- Stops at the first line that it is passed. -/
def stopFirst (_ : List UInt8) (stops : Bool) : Int × Bool := (if stops then 1 else 0, false)

def resumeStart : World Feed := ⟨emptyStream, ⟨[97, 10, 98, 10], 1, false⟩⟩

theorem trickle_resumed : (∃ calls final a', consumeAll trickle.system (Source.readMore.read trickle.system)
      (recording (byContents stopFirst)) 5 calls resumeStart ([], false) =
        .ok (final, (lines [97, 10, 98, 10], a'))) ↔ Quiet stopFirst (lines [97, 10, 98, 10]) false :=
  consumeAll_lines_iff trickle .readMore (by decide : (0 : Int) < 8) (by decide) stopFirst false rfl (by decide)
    ⟨fun _ _ => rfl, by decide⟩

/-- After the stop at `a` a second line comes that is not in the input. -/
theorem stop_invents_line : (consumeAll trickle.system (Source.readMore.read trickle.system)
      (recording (byContents stopFirst)) 5 2 resumeStart ([], true)).map (fun result => result.2.1) =
        .ok [[97], [], [98]] ∧ lines [97, 10, 98, 10] = [[97], [98]] := by
  decide +kernel

end MnCommon.Bytestream
