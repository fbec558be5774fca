import MnCommon.Bytestream.Resume

/-! The streams of `bytestream_aux.c` that read from memory. -/

namespace MnCommon.Bytestream

open Memory (Fault)

variable {E A : Type} (sys : System E)

/-- Takes its bytes from the buffer itself, behind the end of the data. -/
def bytestreamReadMoreBytes (sz : Int) (w : World E) : Except Fault (Answer E) :=
  let nleft := w.stream.sz - w.stream.eod
  if nleft ≤ 0 then
    .ok (-1, w)
  else
    let sz := min sz nleft
    let excess := (w.stream.eod + sz) - w.stream.sz
    if excess > 0 then
      .ok (-1, w)
    else
      .ok (sz, { w with stream := { w.stream with eod := w.stream.eod + sz } })

/-- The buffer is the memory of the client, and nothing of it counts as read. -/
def fromMemory (data : Piece) (env : E) : World E :=
  let w := (bytestreamInit sys 0 env).2
  { w with stream := { w.stream with sz := data.bytes.length, data := data.bytes } }

def bytestreamFromBytes (str : Piece) (env : E) : World E := fromMemory sys str env

def bytestreamFromMem (s : Piece) (env : E) : World E := fromMemory sys s env

/-- A client that asks for data until it is told that there are none, as
`bytestream_consume_lines` does. -/
def drain (readMore : Int → World E → Except Fault (Answer E)) : Nat → World E → Except Fault (World E)
  | 0, _ => .error .outOfFuel
  | fuel + 1, w => do
      let (res, w) ← bytestreamConsumeData readMore w
      if res = .ready then
        drain readMore fuel w
      else
        return w

def available (s : MnByteStream) : List UInt8 := slice s.data s.pos s.eod

/-- What a client gets to see of a stream over `bytes`: all of them, and their lines. -/
def Serves (linecb : MnByteStream → ByteRange → A → Int × A) (a : A) (bytes : List UInt8) (w : World E) : Prop :=
  (∃ fuel final, drain bytestreamReadMoreBytes fuel w = .ok final ∧ available final.stream = bytes) ∧
    ∃ fuel final a', bytestreamConsumeLines sys bytestreamReadMoreBytes (recording linecb) fuel w ([], a) =
      .ok (0, final, (lines bytes, a'))

variable {sys} {w : World E} {sz : Int}

/-- A request for no bytes is answered by none, or by an error at the end of the
memory. -/
theorem readMoreBytes_nothing (w : World E) : ∃ nread, bytestreamReadMoreBytes 0 w = .ok (nread, w) ∧ nread ≤ 0 := by
  rw [bytestreamReadMoreBytes]
  by_cases none : w.stream.sz - w.stream.eod ≤ 0
  · exact ⟨-1, by simp only [if_pos none], by decide⟩
  · have least : min 0 (w.stream.sz - w.stream.eod) = 0 := by omega
    have fits : ¬ w.stream.eod - w.stream.sz > 0 := by omega
    refine ⟨0, ?_, le_rfl⟩
    simp only [if_neg none, least, add_zero, if_neg fits]

/-- Without a growth step nothing is asked for when everything has been used up. -/
theorem consumeData_nothing (step : w.stream.growsz = 0) (used : w.stream.pos ≤ w.stream.eod) :
    ∃ res, bytestreamConsumeData bytestreamReadMoreBytes w = .ok (res, w) ∧ res ≠ .ready := by
  rcases readMoreBytes_nothing w with ⟨nread, read, low⟩
  have amount : (if w.stream.pos + w.stream.growsz - w.stream.eod ≤ 0 then w.stream.growsz
      else w.stream.pos + w.stream.growsz - w.stream.eod) = 0 := by
    rw [step]
    split <;> omega
  rw [bytestreamConsumeData]
  simp only [amount, read, bind, Except.bind]
  by_cases zero : nread = 0
  · exact ⟨.eof, by simp only [if_pos zero]; rfl, by decide⟩
  · have negative : nread < 0 := by omega
    exact ⟨.failed, by simp only [if_neg zero, if_pos negative]; rfl, by decide⟩

theorem drain_nothing {fuel : Nat} {final : World E} (step : w.stream.growsz = 0)
    (used : w.stream.pos ≤ w.stream.eod) (run : drain bytestreamReadMoreBytes fuel w = .ok final) : final = w := by
  cases fuel with
  | zero => cases run
  | succ fuel =>
      rcases consumeData_nothing step used with ⟨res, consumed, unready⟩
      rw [drain, consumed] at run
      simp only [bind, Except.bind, if_neg unready] at run
      exact (Except.ok.inj run).symm

theorem serves_iff (linecb : MnByteStream → ByteRange → A → Int × A) (a : A) (data : Piece) (env : E) :
    Serves sys linecb a data.bytes (fromMemory sys data env) ↔ data.bytes = [] := by
  let w := fromMemory sys data env
  have step : w.stream.growsz = 0 := rfl
  have used : w.stream.pos ≤ w.stream.eod := le_rfl
  have none : available w.stream = [] := slice_self _ _
  constructor
  · rintro ⟨⟨fuel, final, run, all⟩, -⟩
    have same : final = w := drain_nothing step used run
    rw [← all, same]
    exact none
  · intro empty
    rcases consumeData_nothing step used with ⟨res, consumed, unready⟩
    have drained : drain bytestreamReadMoreBytes 1 w = .ok w := by
      rw [drain, consumed]
      simp only [bind, Except.bind, if_neg unready]
      rfl
    have clean : 10 ∉ ([] : List UInt8) := by simp
    have atEnd : w.stream.eod ≤ w.stream.pos := le_rfl
    have filled : refill bytestreamReadMoreBytes w = .ok (false, w) := by
      rw [refill, if_pos atEnd, consumed]
      simp only [bind, Except.bind, decide_eq_false unready]
      rfl
    refine ⟨⟨1, w, drained, none.trans empty.symm⟩, 1, w, a, ?_⟩
    rw [empty, lines_clean clean, bytestreamConsumeLines, lineLoop, filled]
    simp only [bind, Except.bind, Bool.false_eq_true, if_false]
    rfl

variable (sys) in
/-- Neither of the two ever gives away a byte of its memory. -/
theorem fromMemory_serves_iff (linecb : MnByteStream → ByteRange → A → Int × A) (a : A) (data : Piece) (env : E) :
    (Serves sys linecb a data.bytes (bytestreamFromBytes sys data env) ↔ data.bytes = []) ∧
      (Serves sys linecb a data.bytes (bytestreamFromMem sys data env) ↔ data.bytes = []) :=
  ⟨serves_iff linecb a data env, serves_iff linecb a data env⟩

/-- `a` and a line end. -/
def oneLine : Piece := ⟨[97, 10], by decide⟩

theorem oneLine_unserved : ¬ Serves trickle.system (fun _ _ (a : Unit) => (0, a)) () oneLine.bytes
    (bytestreamFromMem trickle.system oneLine ⟨[], 0, false⟩) := by
  rintro ⟨⟨fuel, final, run, all⟩, -⟩
  have same : final = _ := drain_nothing rfl (by decide) run
  rw [same] at all
  exact absurd all (by decide)

end MnCommon.Bytestream
