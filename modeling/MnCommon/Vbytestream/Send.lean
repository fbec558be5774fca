import MnCommon.Vbytestream.Write

/-! Runs of appends and writes. -/

namespace MnCommon.Vbytestream

open Memory (Fault Along of_bind_ok)
open Bytestream (Text toSize)

section

variable {E : Type} {sys : System E} {w next : World E} {P : E → Prop} {sz answer : Int} {text : Option Text}

/-- Memory is all that an append takes from its environment. -/
theorem iovecAlloc_env {slot slot' : Iovec} {size : Nat} {env env' : E}
    (keeps : ∀ size env, P env → P (sys.malloc size env).2) (holds : P env)
    (done : iovecAlloc sys slot size env = .ok (slot', env')) : P env' := by
  rw [iovecAlloc] at done
  split at done
  · rcases of_bind_ok done with ⟨⟨s, after⟩, made, same⟩
    cases same
    rw [bytesNew] at made
    split at made
    · cases made
    · simp only at made
      split at made
      · cases made
        exact keeps _ env holds
      · cases made
  · cases done

theorem nextEdge_env {s : Mnvbytestream} {env : E} (keeps : ∀ size env, P env → P (sys.malloc size env).2)
    (holds : P env) (done : nextEdge sys sz text ⟨s, env⟩ = .ok (answer, next)) : P next.env := by
  rcases of_bind_ok done with ⟨⟨edge, iov⟩, -, rest⟩
  simp only at rest
  split at rest
  · rcases of_bind_ok rest with ⟨⟨edge, env⟩, made, rest⟩
    have after := iovecAlloc_env keeps holds made
    rcases of_bind_ok rest with ⟨⟨nused, edge⟩, -, rest⟩
    simp only at rest
    split at rest
    · cases rest
      exact after
    · cases rest
      exact after
  · cases rest

variable (sys) in
theorem nprintf_env (keeps : ∀ size env, P env → P (sys.malloc size env).2) (holds : P w.env)
    (done : vbytestreamNprintf sys sz text w = .ok (answer, next)) : P next.env := by
  rcases of_bind_ok done with ⟨⟨edge, w'⟩, opened, rest⟩
  have after : P w'.env := by
    rcases of_bind_ok opened with ⟨⟨edge, iov⟩, -, rest⟩
    simp only at rest
    split at rest
    · split at rest
      · rcases of_bind_ok rest with ⟨⟨edge, env⟩, made, same⟩
        cases same
        exact iovecAlloc_env keeps holds made
      · cases rest
    · split at rest
      · cases rest
        exact holds
      · cases rest
  rcases of_bind_ok rest with ⟨⟨nused, edge⟩, -, rest⟩
  simp only at rest
  split at rest
  · split at rest
    · split at rest
      · cases rest
        exact after
      · cases rest
    · exact nextEdge_env keeps after rest
  · cases rest
    exact after

theorem adopt_env {data : Mnbytes} (holds : P w.env) (done : vbytestreamAdopt data w = .ok (answer, next)) :
    P next.env := by
  rcases of_bind_ok done with ⟨iov, -, rest⟩
  simp only at rest
  split at rest
  · cases rest
  · split at rest
    · rw [← (Prod.mk.inj (Except.ok.inj rest)).2]
      exact holds
    · cases rest

end

/-- The bytes that have gone out, and the number of calls made. -/
structure Sink where
  taken : List UInt8
  tick : Nat

/-- How much each `writev` takes, and what new memory holds. -/
structure Plan where
  iovMax : Nat
  takes : Nat → Option Nat
  junk : Nat → Nat → UInt8

def Plan.system (plan : Plan) : System Sink where
  iovMax := plan.iovMax
  malloc _ env := (plan.junk env.tick, { env with tick := env.tick + 1 })
  readv _ env := (none, env)
  writev bytes env :=
    match plan.takes env.tick with
    | none => (none, { env with tick := env.tick + 1 })
    | some n => (some n, { taken := env.taken ++ bytes.take n, tick := env.tick + 1 })

inductive SendOp where
  | append (op : EditOp) (appends : op ≠ .rewind)
  | write

variable (plan : Plan)

def send : SendOp → World Sink → Except Fault (Answer Sink)
  | .append op _, w => edit plan.system op w
  | .write, w => vbytestreamWrite plan.system w

def SendOp.added (answer : Int) : SendOp → List UInt8
  | .append op _ => op.added answer
  | .write => []

/-- The data behind the position. -/
def unsent (s : Mnvbytestream) : List UInt8 := (contentFrom s.pos.idx.toNat s).drop s.pos.offt.toNat

/-- What has gone out and what is still to go out are the content, and when all of it
has gone out a write has nothing to send. -/
def Sends (op : SendOp) (w : World Sink) : Prop :=
  ∃ answer next, send plan op w = .ok (answer, next) ∧
    content next.stream = content w.stream ++ op.added answer ∧
    next.env.taken ++ unsent next.stream = content next.stream ∧
    (op = .write → w.env.taken = content w.stream → answer ≤ 0)

/-- The number of segments that a write offers. -/
def segments (s : Mnvbytestream) : Int := s.eod.idx + s.part - s.pos.idx

/-- An append that is fine, or a write that fails, or one from the start of a segment
that takes all that it is offered. -/
def Whole : SendOp → World Sink → Prop
  | .append op _, w => Fine op w
  | .write, w => segments w.stream ≤ 0 ∨ plan.iovMax ≤ segments w.stream ∨ plan.takes w.env.tick = none ∨
      w.stream.pos.offt = 0 ∧
        ∃ n, plan.takes w.env.tick = some n ∧ (contentFrom w.stream.pos.idx.toNat w.stream).length ≤ n

/-- Between two calls. -/
structure Sending (w : World Sink) : Prop where
  good : Good w.stream
  low : 0 ≤ w.stream.pos.idx
  high : w.stream.pos.idx ≤ w.stream.eod.idx
  offt : w.stream.pos.offt ≤ (contentFrom w.stream.pos.idx.toNat w.stream).length
  account : w.env.taken ++ unsent w.stream = content w.stream

variable {plan} {w next : World Sink}

theorem Sending.grown {bytes : List UInt8} (sending : Sending w) (grown : Grown w.stream next.stream bytes)
    (same : next.env.taken = w.env.taken) : Sending next := by
  rcases sending with ⟨good, low, high, offt, account⟩
  have below : ((w.stream.pos.idx.toNat : Nat) : Int) ≤ w.stream.eod.idx := by omega
  have more := grown.content _ below
  have length : w.stream.pos.offt.toNat ≤ (contentFrom w.stream.pos.idx.toNat w.stream).length := by omega
  refine ⟨grown.good, ?_, ?_, ?_, ?_⟩
  · rwa [grown.pos]
  · rw [grown.pos]
    exact high.trans grown.idx
  · rw [grown.pos, more, List.length_append]
    omega
  · rw [unsent, grown.pos, more, List.drop_append_of_le_length length, same, content_grown good grown, ← account,
      unsent, List.append_assoc]

/-- The position is not part of what makes a stream good. -/
theorem Good.moved {s : Mnvbytestream} (good : Good s) (pos : Cursor) : Good { s with pos := pos } := by
  have same : ∀ {full tail : List Iovec}, Laid s full tail → Laid { s with pos := pos } full tail :=
    fun laid => ⟨laid.split, laid.idx, laid.closed, laid.nonneg, laid.edge⟩
  rcases good with ⟨full, tail, clean⟩ | ⟨empty, ⟨full, tail, laid⟩, edge, first⟩
  · exact .inl ⟨full, tail, clean.split, clean.idx, clean.closed, clean.tail⟩
  · exact .inr ⟨empty, ⟨full, tail, same laid⟩, edge, first⟩

/-- The data of the edge, as far as the mark. -/
theorem Laid.length_edge {s : Mnvbytestream} {full tail : List Iovec} (laid : Laid s full tail) :
    (contentFrom s.eod.idx.toNat s).length = s.eod.offt := by
  have nonneg := laid.nonneg
  rw [contentFrom_eq laid.split laid.idx, laid.idx, Int.toNat_natCast, List.drop_length]
  change ((tail.headD iovecInit).bytes.take s.eod.offt.toNat).length = s.eod.offt
  rw [List.length_take]
  rcases nonneg.eq_or_lt with empty | filled
  · omega
  · rcases laid.edge filled with ⟨b, rest, rfl, more, -⟩
    have whole := b.whole
    have bytes : (({ iovBase := some b, iovLen := b.sz } :: rest : List Iovec).headD iovecInit).bytes = b.data := rfl
    rw [bytes]
    omega

/-- A write that has taken everything. -/
theorem Sending.sent (sending : Sending w) (total : Int) {env : Sink} (start : w.stream.pos.offt = 0)
    (took : env.taken = w.env.taken ++ contentFrom w.stream.pos.idx.toNat w.stream) :
    Sending ⟨{ w.stream with pos := { idx := w.stream.eod.idx, offt := w.stream.eod.offt, total := total } }, env⟩ := by
  rcases sending with ⟨good, -, -, -, account⟩
  rcases good.laid with ⟨full, tail, laid⟩
  have length := laid.length_edge
  have nothing : (contentFrom w.stream.eod.idx.toNat w.stream).drop w.stream.eod.offt.toNat = [] := by
    rw [List.drop_eq_nil_iff]
    omega
  rw [unsent, start, Int.toNat_zero, List.drop_zero] at account
  refine ⟨good.moved _, laid.before, le_rfl, length.ge, ?_⟩
  calc env.taken ++ (contentFrom w.stream.eod.idx.toNat w.stream).drop w.stream.eod.offt.toNat
      = env.taken := by rw [nothing, List.append_nil]
    _ = content w.stream := by rw [took, account]

theorem write_whole (sending : Sending w) (whole : Whole plan .write w) :
    ∃ answer next, vbytestreamWrite plan.system w = .ok (answer, next) ∧
      content next.stream = content w.stream ∧ Sending next ∧ (w.env.taken = content w.stream → answer ≤ 0) := by
  by_cases refused : segments w.stream ≤ 0 ∨ plan.iovMax ≤ segments w.stream
  · refine ⟨-1, w, ?_, rfl, sending, fun _ => by decide⟩
    rw [vbytestreamWrite]
    exact if_pos refused
  · rcases not_or.mp refused with ⟨some_left, few⟩
    rcases sending.good.laid with ⟨full, tail, laid⟩
    have low := sending.low
    have high := sending.high
    have idx := laid.idx
    have sends := write_laid plan.system (p := w.stream.pos.idx.toNat) laid (by omega) (by omega)
      (not_le.mp some_left) (not_le.mp few)
    cases takes : plan.takes w.env.tick with
    | none =>
        have answer : plan.system.writev (contentFrom w.stream.pos.idx.toNat w.stream) w.env =
            (none, { w.env with tick := w.env.tick + 1 }) := by simp only [Plan.system, takes]
        rw [answer] at sends
        exact ⟨-1, _, sends, rfl, ⟨sending.good, low, high, sending.offt, sending.account⟩, fun _ => by decide⟩
    | some n =>
        have answer : plan.system.writev (contentFrom w.stream.pos.idx.toNat w.stream) w.env =
            (some n, { taken := w.env.taken ++ (contentFrom w.stream.pos.idx.toNat w.stream).take n,
                       tick := w.env.tick + 1 }) := by simp only [Plan.system, takes]
        rw [answer] at sends
        rw [Whole, or_iff_right some_left, or_iff_right few, takes, or_iff_right (Option.some_ne_none n)] at whole
        rcases whole with ⟨start, m, same, enough⟩
        rw [← Option.some.inj same] at enough
        refine ⟨_, _, sends, rfl, sending.sent _ start ?_, fun all => ?_⟩
        · rw [List.take_of_length_le enough]
        · have account := sending.account
          rw [unsent, start, Int.toNat_zero, List.drop_zero, all, List.append_right_eq_self] at account
          rw [account, List.length_nil, Nat.min_zero]
          exact le_rfl

theorem append_whole {op : EditOp} {appends : op ≠ .rewind} (sending : Sending w)
    (whole : Whole plan (.append op appends) w) :
    ∃ answer next, edit plan.system op w = .ok (answer, next) ∧
      content next.stream = content w.stream ++ op.added answer ∧ Sending next := by
  rcases append_fine plan.system sending.good whole appends with ⟨answer, next, run, grown⟩
  have same : next.env.taken = w.env.taken := by
    cases op with
    | nprintf sz text =>
        exact nprintf_env plan.system (P := fun env => env.taken = w.env.taken) (fun _ _ same => same) rfl run
    | adopt data => exact adopt_env (P := fun env => env.taken = w.env.taken) rfl run
    | rewind => exact absurd rfl appends
  exact ⟨answer, next, run, content_grown sending.good grown, sending.grown grown same⟩

theorem send_whole (op : SendOp) (sending : Sending w) (whole : Whole plan op w) :
    ∃ answer next, send plan op w = .ok (answer, next) ∧
      content next.stream = content w.stream ++ op.added answer ∧ Sending next ∧
      (op = .write → w.env.taken = content w.stream → answer ≤ 0) := by
  cases op with
  | append op appends =>
      rcases append_whole sending whole with ⟨answer, next, run, more, kept⟩
      exact ⟨answer, next, run, more, kept, fun wrong => SendOp.noConfusion wrong⟩
  | write =>
      rcases write_whole sending whole with ⟨answer, next, run, same, kept, nothing⟩
      exact ⟨answer, next, run, same.trans (List.append_nil _).symm, kept, fun _ => nothing⟩

theorem init_sending {growsz iovreserve : Nat} (init : vbytestreamInit growsz iovreserve = .ok w.stream)
    (fresh : w.env.taken = []) : Sending w := by
  have good := init_good init
  rw [vbytestreamInit] at init
  split at init
  · have made := Except.ok.inj init
    refine ⟨good, ?_, ?_, ?_, ?_⟩
    · rw [← made]
    · rw [← made]
    · rw [← made]
      exact Int.natCast_nonneg _
    · rw [fresh, ← made]
      rfl
  · cases init

/-- As long as every write takes all that it is offered, or fails, each byte goes out
once and in order. -/
theorem sends_along {growsz iovreserve : Nat} {ops : List SendOp}
    (init : vbytestreamInit growsz iovreserve = .ok w.stream) (fresh : w.env.taken = [])
    (whole : Along (send plan) (Whole plan) ops w) : Along (send plan) (Sends plan) ops w := by
  refine Along.of_invariant ?_ ?_ (init_sending init fresh) whole
  · intro op w sending whole
    rcases send_whole op sending whole with ⟨answer, next, run, more, kept, nothing⟩
    exact ⟨answer, next, run, more, kept.account, nothing⟩
  · intro op w answer next sending whole done
    rcases send_whole op sending whole with ⟨answer', next', run, -, kept, -⟩
    rcases Prod.mk.inj (Except.ok.inj (done.symm.trans run)) with ⟨-, rfl⟩
    exact kept

/-- Takes one byte, then two. -/
def hesitant : Plan where
  iovMax := 1024
  takes tick := some (if tick ≤ 1 then 1 else 2)
  junk _ _ := 88

/-- Takes all. -/
def eager : Plan where
  iovMax := 1024
  takes _ := some 1024
  junk _ _ := 88

def twoLetters : Text := ⟨[97, 98], by decide⟩

theorem eager_sends : Along (send eager) (Sends eager)
    [.append (.nprintf 4 twoLetters) EditOp.noConfusion, .write] ⟨freshStream, ⟨[], 0⟩⟩ := by
  refine sends_along (show vbytestreamInit 4 0 = .ok freshStream from rfl) rfl
    ⟨?_, fun answer next run => ⟨?_, fun _ _ _ => trivial⟩⟩
  · exact ⟨by decide, .inl (by decide)⟩
  · cases run
    exact .inr (.inr (.inr ⟨rfl, 1024, rfl, by decide⟩))

/-- The first byte goes out twice. -/
theorem hesitant_repeats :
    (Memory.execute (send hesitant) [.append (.nprintf 4 twoLetters) EditOp.noConfusion, .write, .write]
      ⟨freshStream, ⟨[], 0⟩⟩).map (fun result => (result.2.env.taken, content result.2.stream)) =
        .ok ([97, 97, 98], [97, 98]) := by
  decide +kernel

end MnCommon.Vbytestream
