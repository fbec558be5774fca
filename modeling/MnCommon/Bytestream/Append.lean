import MnCommon.Bytestream.Cursors

/-! What a run of appends adds to a stream. -/

namespace MnCommon.Bytestream

open Memory (Fault Along Reachable along_iff)

inductive AppendOp where
  | nprintf (sz : UInt64) (text : Text)
  | vnprintf (sz : UInt64) (text : Text)
  | cat (piece : Piece)

/-- As an operation whose formatter reports no error. -/
def AppendOp.op : AppendOp → StreamOp
  | .nprintf sz text => .nprintf sz (some text)
  | .vnprintf sz text => .vnprintf sz (some text)
  | .cat piece => .cat piece

/-- The bytes that the call is to append. -/
def AppendOp.bytes : AppendOp → List UInt8
  | .nprintf _ text => text.chars
  | .vnprintf _ text => text.chars
  | .cat piece => piece.bytes

variable {E : Type} (sys : System E)

def append (op : AppendOp) (w : World E) : Except Fault (Answer E) := step sys op.op w

/-- Whether the buffer can be made large enough and the text is shorter than the
limit, which the code reads as a signed number. -/
def accepts : AppendOp → World E → Bool
  | .nprintf sz text, w =>
      (makeRoom sys sz.toNat w).1 && decide ((text.chars.length : Int) < toSigned sz.toNat)
  | .vnprintf sz text, w =>
      (makeRoom sys sz.toNat w).1 && decide ((text.chars.length : Int) < toSigned sz.toNat)
  | .cat piece, w => (makeRoom sys piece.bytes.length w).1

/-- How the caller is told that nothing has been appended. -/
def AppendOp.Refused : AppendOp → Int → Prop
  | .cat _, answer => answer = CAT_ERROR
  | _, answer => answer < 0

/-- No byte is written outside of the buffer, and the bytes are appended or the
call fails and leaves everything as it was. -/
def Law (op : AppendOp) (w : World E) : Prop :=
  ∃ answer next, append sys op w = .ok (answer, next) ∧ next.stream.pos = w.stream.pos ∧
    (accepts sys op w = true → content next.stream = content w.stream ++ op.bytes ∧
      next.stream.eod = w.stream.eod + op.bytes.length) ∧
    (accepts sys op w = false → op.Refused answer ∧ content next.stream = content w.stream ∧
      next.stream.eod = w.stream.eod)

/-- Either the stream sees that it has to grow or what is written fits in. -/
def Roomy : AppendOp → World E → Prop
  | .nprintf sz text, w => Fits sz.toNat (printed sz.toNat text) w.stream
  | .vnprintf sz text, w => Fits sz.toNat (printed sz.toNat text) w.stream
  | .cat piece, w => Fits piece.bytes.length piece.bytes w.stream

/-- The pieces of a run that are appended, one after the other. -/
def appended : List AppendOp → World E → List UInt8
  | [], _ => []
  | op :: ops, w =>
      (if accepts sys op w then op.bytes else []) ++
        match append sys op w with
        | .ok (_, next) => appended ops next
        | .error _ => []

def appendAll : List AppendOp → World E → Except Fault (World E)
  | [], w => .ok w
  | op :: ops, w =>
      match append sys op w with
      | .ok (_, next) => appendAll ops next
      | .error kind => .error kind

/-- Calls with sizes that memory can have, without an error of the formatter, that
give back only what has been read. -/
def Proper : StreamOp → World E → Prop
  | .readMore sz, _ => 0 ≤ sz ∧ sz < 2 ^ 63
  | .recvMore sz, _ => 0 ≤ sz ∧ sz < 2 ^ 63
  | .write sz, _ => sz.toNat < 2 ^ 63
  | .stderrWrite sz, _ => sz.toNat < 2 ^ 63
  | .send sz, _ => sz.toNat < 2 ^ 63
  | .consumeData _, w => 0 ≤ w.stream.growsz
  | .nprintf _ text, _ => text ≠ none
  | .vnprintf _ text, _ => text ≠ none
  | .cat _, _ => True
  | .rewind, _ => True
  | .recycle ngrowsz start, w => start ≤ w.stream.pos ∧ (0 ≤ start ∨
      start - start.tmod sys.pagesize ≤ w.stream.growsz * ngrowsz)

/-- What holds of every stream made by such calls, also after a failed `send`. -/
structure Appendable (s : MnByteStream) : Prop where
  buffered : Buffered s
  order : s.pos ≤ s.eod

variable {sys} {w next : World E} {s after : MnByteStream} {bytes : List UInt8} {answer : Int}

theorem Appendable.roomier (fine : Appendable s) (roomier : Roomier s after) : Appendable after := by
  refine ⟨roomier.buffered, ?_⟩
  rw [roomier.pos, roomier.eod]
  exact fine.order

theorem Appendable.extended (fine : Appendable s) (extended : Extended s after bytes) : Appendable after := by
  refine ⟨extended.buffered, ?_⟩
  have order := fine.order
  rw [extended.pos, extended.eod]
  omega

/-- A write that has got as far as the data at most. -/
theorem Appendable.written {result : Answer E} (fine : Appendable w.stream)
    (effect : result.1 = -1 ∧ result.2.stream = w.stream ∨ Advanced w.stream result.2.stream result.1) :
    Appendable result.2.stream := by
  rcases effect with ⟨-, same⟩ | ⟨same, -, within⟩
  · rw [same]
    exact fine
  · rw [same]
    exact ⟨{ fine.buffered with }, within⟩

theorem Appendable.sent {sz : UInt64} (fine : Appendable w.stream) (high : sz.toNat < 2 ^ 63) :
    Appendable (bytestreamSend sys sz.toNat w).2.stream := by
  by_cases failed : (sys.send (outgoing w.stream sz.toNat) sz.toNat w.env).1 = none
  · rw [bytestreamSend]
    split
    · exact fine
    · cases call : sys.send (outgoing w.stream sz.toNat) sz.toNat w.env with
      | mk got env =>
          rw [call] at failed
          replace failed : got = none := failed
          subst failed
          refine ⟨{ fine.buffered with }, ?_⟩
          have order := fine.order
          simp only
          omega
  · exact fine.written (bytestreamSend_spec sys high fun _ => failed)

theorem Appendable.read {call : Nat → E → Option (List UInt8) × E} {sz : Int} (fine : Appendable w.stream)
    (low : 0 ≤ sz) (high : sz < 2 ^ 63) (done : transferIn sys call sz w = .ok (answer, next)) :
    Appendable next.stream := by
  cases room : makeRoom sys sz w with
  | mk grown middle =>
      have roomier := (makeRoom_spec fine.buffered low (by omega) room).1
      cases grown with
      | false =>
          simp only [transferIn, room, Except.ok.injEq, Prod.mk.injEq] at done
          rcases done with ⟨-, rfl⟩
          exact fine.roomier roomier
      | true =>
          cases read : call (toSize sz) middle.env with
          | mk got env =>
              cases got with
              | none =>
                  simp only [transferIn, room, read, Except.ok.injEq, Prod.mk.injEq] at done
                  rcases done with ⟨-, rfl⟩
                  exact fine.roomier roomier
              | some got =>
                  let here : World E := ⟨middle.stream, env⟩
                  simp only [transferIn, room, read] at done
                  by_cases fits : got.take (toSize sz) = [] ∨
                      here.stream.eod + (got.take (toSize sz)).length ≤ here.stream.data.length
                  · have buffered : Buffered here.stream := roomier.buffered
                    rcases poke_advance buffered fits le_rfl with ⟨final, poked, -, -, extended⟩
                    rw [poked] at done
                    rcases Prod.mk.inj (Except.ok.inj done) with ⟨-, rfl⟩
                    exact fine.extended (roomier.extend extended)
                  · simp only [not_or, not_le] at fits
                    rw [poke_end_fault (w := here) fits.1 fits.2] at done
                    cases done

theorem Appendable.formatted {sz : UInt64} {text : Text} (fine : Appendable w.stream)
    (done : appendFormatted sys sz.toNat (some text) w = .ok (answer, next)) : Appendable next.stream := by
  by_cases fits : Fits sz.toNat (printed sz.toNat text) w.stream
  · rcases appendFormatted_spec sys fine.buffered sz.toNat_lt fits with ⟨answer', next', run, effect⟩
    rcases Prod.mk.inj (Except.ok.inj (done.symm.trans run)) with ⟨-, rfl⟩
    rcases effect with ⟨-, -, roomier⟩ | ⟨-, -, extended⟩
    · exact fine.roomier roomier
    · exact fine.extended extended
  · rw [appendFormatted_fault sys fits] at done
    cases done

theorem Appendable.consumed {source : Source} (fine : Appendable w.stream) (proper : Proper sys (.consumeData source) w)
    (done : step sys (.consumeData source) w = .ok (answer, next)) : Appendable next.stream := by
  have order := fine.order
  let need := w.stream.pos + w.stream.growsz - w.stream.eod
  have low : 0 ≤ (if need ≤ 0 then w.stream.growsz else need) := by
    simp only [Proper] at proper
    omega
  have high : (if need ≤ 0 then w.stream.growsz else need) < 2 ^ 63 := by
    have small := fine.buffered.step
    omega
  simp only [step, bytestreamConsumeData] at done
  cases run : source.read sys (if need ≤ 0 then w.stream.growsz else need) w with
  | error kind =>
      simp only [need] at run
      rw [run] at done
      cases done
  | ok result =>
      rcases result with ⟨nread, final⟩
      have kept : Appendable final.stream := by
        cases source with
        | readMore => exact fine.read low high run
        | recvMore => exact fine.read low high run
      simp only [need] at run
      rw [run] at done
      simp only [bind, Except.bind, pure, Except.pure] at done
      have same : next = final := by
        by_cases zero : nread = 0
        · simp only [if_pos zero] at done
          exact (Prod.mk.inj (Except.ok.inj done)).2.symm
        · by_cases negative : nread < 0
          · simp only [if_neg zero, if_pos negative] at done
            exact (Prod.mk.inj (Except.ok.inj done)).2.symm
          · simp only [if_neg zero, if_neg negative] at done
            exact (Prod.mk.inj (Except.ok.inj done)).2.symm
      rw [same]
      exact kept

theorem Appendable.catted {piece : Piece} (fine : Appendable w.stream)
    (done : step sys (.cat piece) w = .ok (answer, next)) : Appendable next.stream := by
  by_cases fits : Fits piece.bytes.length piece.bytes w.stream
  · rcases bytestreamCat_spec sys fine.buffered fits with ⟨answer', next', run, effect⟩
    rcases Prod.mk.inj (Except.ok.inj (done.symm.trans run)) with ⟨-, rfl⟩
    rcases effect with ⟨-, -, roomier⟩ | ⟨-, extended⟩
    · exact fine.roomier roomier
    · exact fine.extended extended
  · rw [step, bytestreamCat_fault sys fits] at done
    cases done

theorem step_appendable (op : StreamOp) (w : World E) (answer : Int) (next : World E)
    (fine : Appendable w.stream) (proper : Proper sys op w) (done : step sys op w = .ok (answer, next)) :
    Appendable next.stream := by
  cases op with
  | readMore sz | recvMore sz => exact fine.read proper.1 proper.2 done
  | write sz =>
      rcases Prod.mk.inj (Except.ok.inj done) with ⟨-, rfl⟩
      exact fine.written (bytestreamWrite_spec sys proper)
  | stderrWrite sz =>
      rcases Prod.mk.inj (Except.ok.inj done) with ⟨-, rfl⟩
      exact fine.written (bytestreamStderrWrite_spec sys proper)
  | send sz =>
      rcases Prod.mk.inj (Except.ok.inj done) with ⟨-, rfl⟩
      exact fine.sent proper
  | consumeData source => exact fine.consumed proper done
  | nprintf sz text | vnprintf sz text =>
      cases text with
      | none => exact absurd rfl proper
      | some text => exact fine.formatted done
  | cat piece => exact fine.catted done
  | rewind =>
      rcases Prod.mk.inj (Except.ok.inj done) with ⟨-, rfl⟩
      exact ⟨{ fine.buffered with nonneg := le_rfl, inside := Int.natCast_nonneg _ }, le_rfl⟩
  | recycle ngrowsz start =>
      rcases bytestreamRecycle_spec sys fine.buffered fine.order proper.1 proper.2 with
        ⟨n, final, run, -, -, -, shifted, -⟩
      rcases Prod.mk.inj (Except.ok.inj (done.symm.trans run)) with ⟨-, rfl⟩
      refine ⟨shifted.buffered, ?_⟩
      have order := fine.order
      rw [shifted.pos, shifted.eod]
      omega

theorem Started.appendable (started : Started sys w) : Appendable w.stream := by
  cases started with
  | init growsz env low high done =>
      have fresh := (bytestreamInit_fresh done).1
      exact ⟨fresh.buffered low, (fresh.pos.trans fresh.eod.symm).le⟩
  | initData data growsz env high done =>
      subst done
      have short := data.short
      refine ⟨⟨?_, le_rfl, ?_, ?_, ?_, high, ?_⟩, ?_⟩
      all_goals simp only [bytestreamInitData]
      all_goals omega

theorem append_formatted {sz : UInt64} {text : Text} (fine : Appendable w.stream)
    (fits : Fits sz.toNat (printed sz.toNat text) w.stream) :
    ∃ answer next, appendFormatted sys sz.toNat (some text) w = .ok (answer, next) ∧
      next.stream.pos = w.stream.pos ∧
      (((makeRoom sys sz.toNat w).1 && decide ((text.chars.length : Int) < toSigned sz.toNat)) = true →
        content next.stream = content w.stream ++ text.chars ∧
        next.stream.eod = w.stream.eod + text.chars.length) ∧
      (((makeRoom sys sz.toNat w).1 && decide ((text.chars.length : Int) < toSigned sz.toNat)) = false →
        answer < 0 ∧ content next.stream = content w.stream ∧ next.stream.eod = w.stream.eod) := by
  rcases appendFormatted_spec sys fine.buffered sz.toNat_lt fits with ⟨answer, next, run, effect⟩
  refine ⟨answer, next, run, ?_⟩
  rcases effect with ⟨refused, negative, roomier⟩ | ⟨⟨roomy, short⟩, rfl, extended⟩
  · refine ⟨roomier.pos, fun accepted => ?_, fun _ => ⟨negative, roomier.content, roomier.eod⟩⟩
    rw [Bool.and_eq_true, decide_eq_true_eq] at accepted
    rcases refused with full | long
    · exact absurd (accepted.1.symm.trans full) (by decide)
    · exact absurd accepted.2 (not_lt.mpr long)
  · refine ⟨extended.pos, fun _ => ⟨extended.content, extended.eod⟩, fun refused => ?_⟩
    rw [roomy, decide_eq_true short] at refused
    cases refused

theorem law_iff_roomy (op : AppendOp) (w : World E) (fine : Appendable w.stream) :
    Roomy op w ↔ Law sys op w := by
  constructor
  · intro fits
    cases op with
    | nprintf sz text | vnprintf sz text => exact append_formatted fine fits
    | cat piece =>
        rcases bytestreamCat_spec sys fine.buffered fits with ⟨answer, next, run, effect⟩
        refine ⟨answer, next, run, ?_⟩
        rcases effect with ⟨full, told, roomier⟩ | ⟨roomy, extended⟩
        · refine ⟨roomier.pos, fun accepted => ?_, fun _ => ⟨told, roomier.content, roomier.eod⟩⟩
          exact absurd (accepted.symm.trans full) (by decide)
        · refine ⟨extended.pos, fun _ => ⟨extended.content, extended.eod⟩, fun refused => ?_⟩
          exact absurd (refused.symm.trans roomy) (by decide)
  · rintro ⟨answer, next, run, -⟩
    by_contra unfit
    cases op with
    | nprintf sz text | vnprintf sz text =>
        cases run.symm.trans (appendFormatted_fault sys unfit)
    | cat piece => cases run.symm.trans (bytestreamCat_fault sys unfit)

theorem append_keeps (op : AppendOp) (w : World E) (answer : Int) (next : World E)
    (fine : Appendable w.stream) (done : append sys op w = .ok (answer, next)) : Appendable next.stream := by
  refine step_appendable op.op w answer next fine ?_ done
  cases op with
  | nprintf sz text | vnprintf sz text => exact Option.some_ne_none _
  | cat piece => trivial

/-- From the law for each call the content after all of them follows. -/
theorem appendAll_content {ops : List AppendOp} (lawful : Along (append sys) (Law sys) ops w) :
    ∃ final, appendAll sys ops w = .ok final ∧ final.stream.pos = w.stream.pos ∧
      content final.stream = content w.stream ++ appended sys ops w := by
  induction ops generalizing w with
  | nil => exact ⟨w, rfl, rfl, (List.append_nil _).symm⟩
  | cons op ops ih =>
      rcases lawful with ⟨⟨answer, next, run, pos, taken, refused⟩, rest⟩
      rcases ih (rest answer next run) with ⟨final, all, same, whole⟩
      refine ⟨final, by simp only [appendAll, run, all], same.trans pos, ?_⟩
      rw [whole, appended, run]
      cases accepted : accepts sys op w with
      | true => rw [(taken accepted).1, if_pos rfl, List.append_assoc]
      | false => rw [(refused accepted).2.1, if_neg Bool.false_ne_true, List.nil_append]

/-- From every stream made by proper calls, a run of appends follows the law
exactly if each call of it finds room or sees that it has to make room. -/
theorem appends_lawful_iff {ops : List AppendOp} (made : Reachable (step sys) (Started sys) (Proper sys) w) :
    (Along (append sys) (Law sys) ops w ∧ ∃ final, appendAll sys ops w = .ok final ∧
        final.stream.pos = w.stream.pos ∧
        content final.stream = content w.stream ++ appended sys ops w) ↔
      Along (append sys) Roomy ops w := by
  have fine : Appendable w.stream :=
    made.invariant (fun w => Appendable w.stream) (fun _ => Started.appendable) step_appendable
  have same : Along (append sys) Roomy ops w ↔ Along (append sys) (Law sys) ops w :=
    along_iff law_iff_roomy (fun op w answer next here _ => append_keeps op w answer next here) fine
  constructor
  · exact fun holds => same.mpr holds.1
  · intro roomy
    have lawful := same.mp roomy
    exact ⟨lawful, appendAll_content lawful⟩

/-- The calls find room as long as their limits are no negative `ssize_t`. -/
theorem roomy_of_limit (fine : Appendable w.stream) (size : 0 ≤ w.stream.sz) (op : AppendOp)
    (limit : ∀ sz text, op = .nprintf sz text ∨ op = .vnprintf sz text → sz.toNat < 2 ^ 63) :
    Roomy op w := by
  cases op with
  | nprintf sz text | vnprintf sz text =>
      have below := limit sz text (by simp)
      have length := length_printed sz.toNat text
      rcases need_or_room fine.buffered size (Int.natCast_nonneg sz.toNat) (by omega) with missing | room
      · exact .inl missing
      · exact .inr (.inr (by omega))
  | cat piece =>
      have short := piece.short
      exact (need_or_room fine.buffered size (Int.natCast_nonneg _) (by omega)).imp_right .inr

theorem append_nprintf (sz : UInt64) (text : Text) :
    append sys (.nprintf sz text) w = appendFormatted sys sz.toNat (some text) w := rfl

/-- Nine characters into eight bytes, without a limit. -/
def unlimited : AppendOp := .nprintf 18446744073709551615 ⟨List.replicate 9 65, by decide⟩

theorem unlimited_overflows : append deafSystem unlimited ⟨emptyStream, ()⟩ = .error .dangling := by
  rw [unlimited, append_nprintf]
  apply appendFormatted_fault
  rintro (missing | fits)
  · exact absurd missing (by decide)
  · exact absurd fits (by decide)

theorem unlimited_not_lawful :
    ¬ ∀ ops w, Reachable (step deafSystem) (Started deafSystem) (Proper deafSystem) w →
      Along (append deafSystem) (Law deafSystem) ops w := by
  intro always
  rcases always [unlimited] ⟨emptyStream, ()⟩ (.start emptyStream_started) with ⟨⟨answer, next, run, -⟩, -⟩
  cases run.symm.trans unlimited_overflows

theorem limited_lawful :
    (Along (append deafSystem) (Law deafSystem) [.nprintf 4 ⟨[65, 66], by decide⟩] ⟨emptyStream, ()⟩ ∧
      ∃ final, appendAll deafSystem [.nprintf 4 ⟨[65, 66], by decide⟩] ⟨emptyStream, ()⟩ = .ok final ∧
        final.stream.pos = 0 ∧ content final.stream =
          [] ++ appended deafSystem [.nprintf 4 ⟨[65, 66], by decide⟩] ⟨emptyStream, ()⟩) ↔
      Along (append deafSystem) Roomy [.nprintf 4 ⟨[65, 66], by decide⟩] ⟨emptyStream, ()⟩ :=
  appends_lawful_iff (.start emptyStream_started)

end MnCommon.Bytestream
