import MnCommon.Bytestream.Cursors

/-! A stream between two descriptors: what has gone out of it, and what it still holds, is what has come in. -/

namespace MnCommon.Bytestream

open Memory (Fault Along execute execute_step)

/-- The bytes that a stream has been given, by a descriptor or by the client, and those that a descriptor has taken. -/
structure Wire where
  received : List UInt8
  sent : List UInt8
  deriving DecidableEq, Repr

variable {E : Type}

/-- What `read` or `recv` hands over: `size` bytes at most. -/
def handedIn (size : Nat) (wire : Wire) : Option (List UInt8) × E → Option (List UInt8) × E × Wire
  | (some bytes, env) => (some bytes, env, { wire with received := wire.received ++ bytes.take size })
  | (none, env) => (none, env, wire)

/-- What `write` or `send` takes: `size` bytes at most. -/
def handedOut (bytes : List UInt8) (size : Nat) (wire : Wire) : Option Nat × E → Option Nat × E × Wire
  | (some n, env) => (some n, env, { wire with sent := wire.sent ++ bytes.take (min n size) })
  | (none, env) => (none, env, wire)

/-- The same system, with a record of what passes the descriptors. -/
def recorded (sys : System E) : System (E × Wire) where
  pagesize := sys.pagesize
  pagesize_pos := sys.pagesize_pos
  realloc size env := ((sys.realloc size env.1).1, (sys.realloc size env.1).2, env.2)
  junk env := sys.junk env.1
  read size env := handedIn size env.2 (sys.read size env.1)
  recv size env := handedIn size env.2 (sys.recv size env.1)
  write bytes size env := handedOut bytes size env.2 (sys.write bytes size env.1)
  send bytes size env := handedOut bytes size env.2 (sys.send bytes size env.1)

/-- The bytes that the client wants to put into the stream. -/
def StreamOp.bytes : StreamOp → List UInt8
  | .cat piece => piece.bytes
  | .nprintf _ (some text) | .vnprintf _ (some text) => text.chars
  | _ => []

def World.takes (bytes : List UInt8) (w : World (E × Wire)) : World (E × Wire) :=
  { w with env := (w.env.1, { w.env.2 with received := w.env.2.received ++ bytes }) }

variable (sys : System E)

/-- A call of a client who puts down the bytes that he is told have been taken. -/
def relay (op : StreamOp) (w : World (E × Wire)) : Except Fault (Answer (E × Wire)) := do
  let (answer, next) ← step (recorded sys) op w
  return (answer, if 0 ≤ answer then next.takes op.bytes else next)

/-- The calls of a client who loses nothing himself: he rewinds a stream only when all of it has been sent, adds pieces
of which the length is an `int`, and keeps the line ends of `bytestream_stderr_write` out of the data. -/
def Relays (op : StreamOp) (w : World (E × Wire)) : Prop :=
  Heeds (recorded sys) op w ∧
    match op with
    | .stderrWrite _ => False
    | .cat piece => piece.bytes.length < 2 ^ 31
    | .rewind => w.stream.pos = w.stream.eod
    | _ => True

/-- The bytes that are still to be sent. -/
def unsent (s : MnByteStream) : List UInt8 := (content s).drop s.pos.toNat

/-- What the calls pass on, and what they bring in and take out. -/
structure Passes (w next : World (E × Wire)) (taken given : List UInt8) : Prop where
  wire : next.env.2 = ⟨w.env.2.received ++ taken, w.env.2.sent ++ given⟩
  stream : given ++ unsent next.stream = unsent w.stream ++ taken

/-- Everything that the stream has been given has been sent or is still there, in order. -/
def Carries (w : World (E × Wire)) : Prop := w.env.2.sent ++ unsent w.stream = w.env.2.received

variable {sys} {w next : World (E × Wire)} {s after : MnByteStream} {bytes taken given : List UInt8} {n : Int}
  {answer : Int}

theorem Passes.carries (passes : Passes w next taken given) (carries : Carries w) : Carries next := by
  rw [Carries] at carries ⊢
  rw [passes.wire]
  calc
    (w.env.2.sent ++ given) ++ unsent next.stream = w.env.2.sent ++ (unsent w.stream ++ taken) := by
      rw [List.append_assoc, passes.stream]
    _ = w.env.2.received ++ taken := by rw [← List.append_assoc, carries]

theorem Passes.none (wire : next.env.2 = w.env.2) (stream : unsent next.stream = unsent w.stream) :
    Passes w next [] [] := by
  refine ⟨?_, ?_⟩
  · rw [wire, List.append_nil, List.append_nil]
  · rw [stream, List.nil_append, List.append_nil]

theorem unsent_roomier (roomier : Roomier s after) : unsent after = unsent s := by
  rw [unsent, roomier.content, roomier.pos, unsent]

theorem length_content (buffered : Buffered s) : (content s).length = s.eod.toNat := by
  have inside := buffered.inside
  rw [content, List.length_take]
  omega

theorem unsent_extended (cursors : Cursors s) (extended : Extended s after bytes) :
    unsent after = unsent s ++ bytes := by
  have order := cursors.order
  have length := length_content cursors.buffered
  rw [unsent, extended.content, extended.pos, List.drop_append_of_le_length (by omega), unsent]

theorem unsent_advanced (cursors : Cursors s) (advanced : Advanced s after n) :
    unsent after = (unsent s).drop n.toNat := by
  rcases advanced with ⟨rfl, moved, -⟩
  have nonneg := cursors.nonneg
  have place : (s.pos + n).toNat = s.pos.toNat + n.toNat := by omega
  rw [unsent, unsent, List.drop_drop, ← place]
  rfl

theorem unsent_shifted (cursors : Cursors s) (shifted : Shifted s after n) (low : 0 ≤ n) (before : n ≤ s.pos) :
    unsent after = unsent s := by
  have nonneg := cursors.nonneg
  have place : n.toNat + (s.pos - n).toNat = s.pos.toNat := by omega
  rw [unsent, shifted.content, shifted.pos, List.drop_drop, place, unsent]

theorem unsent_done (cursors : Cursors s) (drained : s.pos = s.eod) : unsent s = [] := by
  have length := length_content cursors.buffered
  rw [unsent, List.drop_eq_nil_of_le]
  rw [length, drained]

/-- The bytes that are handed to `write` are the first ones still to be sent. -/
theorem outgoing_eq (cursors : Cursors s) {sz : Nat} (there : s.pos + sz ≤ s.eod) : outgoing s sz = (unsent s).take sz := by
  have nonneg := cursors.nonneg
  rw [outgoing, unsent, content, List.drop_take, List.take_take]
  congr 1
  omega

variable (sys) in
theorem makeRoom_wire (amount : Int) (w : World (E × Wire)) : (makeRoom (recorded sys) amount w).2.env.2 = w.env.2 := by
  rw [makeRoom]
  split
  · rw [bytestreamGrow]
    dsimp only [allocate, recorded]
    split <;> rfl
  · rfl

theorem poke_wire {start : Int} (poked : poke start bytes w = .ok next) : next.env = w.env := by
  rw [poke] at poked
  split_ifs at poked
  · cases poked
    rfl
  · cases poked
    rfl

/-- A read of which the system keeps a record. -/
theorem transferIn_passes {raw : Nat → E → Option (List UInt8) × E} {sz : Int} (cursors : Cursors w.stream)
    (low : 0 ≤ sz) (high : w.stream.eod + sz < 2 ^ 63)
    (run : transferIn (recorded sys) (fun size env => handedIn size env.2 (raw size env.1)) sz w = .ok (answer, next)) :
    ∃ taken, Passes w next taken [] := by
  have nonneg := cursors.buffered.nonneg
  have fits := need_or_room cursors.buffered cursors.size low (by omega)
  have wire := makeRoom_wire sys sz w
  cases room : makeRoom (recorded sys) sz w with
  | mk grown middle =>
      have roomier := (makeRoom_spec cursors.buffered low (by omega) room).1
      rw [room] at wire
      cases grown with
      | false =>
          simp only [transferIn, room] at run
          cases run
          exact ⟨[], .none wire (unsent_roomier roomier)⟩
      | true =>
          cases read : raw (toSize sz) middle.env.1 with
          | mk got env =>
              cases got with
              | none =>
                  simp only [transferIn, room, read, handedIn] at run
                  cases run
                  exact ⟨[], .none wire (unsent_roomier roomier)⟩
              | some got =>
                  have call := congrArg (handedIn (toSize sz) middle.env.2) read
                  rcases @transferIn_read _ (recorded sys) w (fun size env => handedIn size env.2 (raw size env.1)) sz
                    middle got _ cursors.buffered low (by omega) fits room call with ⟨next', run', same, extended⟩
                  cases run.symm.trans run'
                  refine ⟨got.take (toSize sz), ?_, ?_⟩
                  · rw [same, List.append_nil, ← wire]
                  · rw [List.nil_append, unsent_extended cursors extended]

theorem Source.read_passes (source : Source) {sz : Int} (cursors : Cursors w.stream) (low : 0 ≤ sz)
    (high : w.stream.eod + sz < 2 ^ 63) (run : source.read (recorded sys) sz w = .ok (answer, next)) :
    ∃ taken, Passes w next taken [] := by
  cases source with
  | readMore => exact transferIn_passes cursors low high run
  | recvMore => exact transferIn_passes cursors low high run

theorem consumeData_passes (source : Source) {res : Consumed} (cursors : Cursors w.stream)
    (high : w.stream.eod + w.stream.growsz < 2 ^ 63)
    (run : bytestreamConsumeData (source.read (recorded sys)) w = .ok (res, next)) :
    ∃ taken, Passes w next taken [] := by
  have order := cursors.order
  have step := cursors.step
  rw [bytestreamConsumeData] at run
  rcases Memory.of_bind_ok run with ⟨⟨nread, after⟩, read, rest⟩
  have same : after = next := by
    dsimp only at rest
    split_ifs at rest
    all_goals
      cases rest
      rfl
  rw [same] at read
  exact source.read_passes cursors (by omega) (by omega) read

/-- A write of which the system keeps a record, whichever call makes it. -/
theorem passes_out {raw : List UInt8 → Nat → E → Option Nat × E} {sz n : Nat} {env : E} (cursors : Cursors w.stream)
    (there : w.stream.pos + sz ≤ w.stream.eod)
    (wrote : raw (outgoing w.stream sz) sz w.env.1 = (some n, env)) :
    Passes w ⟨{ w.stream with pos := w.stream.pos + min (n : Int) sz },
      (handedOut (outgoing w.stream sz) sz w.env.2 (raw (outgoing w.stream sz) sz w.env.1)).2⟩ []
      ((unsent w.stream).take (min n sz)) := by
  have advanced : Advanced w.stream { w.stream with pos := w.stream.pos + min (n : Int) sz } (min n sz) :=
    ⟨rfl, by omega, by omega⟩
  have count : (min (n : Int) sz).toNat = min n sz := by omega
  refine ⟨?_, ?_⟩
  · rw [wrote, List.append_nil, outgoing_eq cursors there]
    dsimp only [handedOut]
    rw [List.take_take, Nat.min_assoc, Nat.min_self]
  · rw [unsent_advanced cursors advanced, count, List.take_append_drop, List.append_nil]

variable (sys) in
theorem write_passes {sz : Nat} (cursors : Cursors w.stream) (high : sz < 2 ^ 63) :
    ∃ given, Passes w (bytestreamWrite (recorded sys) sz w).2 [] given := by
  rw [bytestreamWrite, toSigned_of_range (by omega) (by omega)]
  by_cases beyond : w.stream.pos + sz > w.stream.eod
  · rw [if_pos beyond]
    exact ⟨[], .none rfl rfl⟩
  · rw [if_neg beyond]
    cases call : sys.write (outgoing w.stream sz) sz w.env.1 with
    | mk wrote env =>
        cases wrote with
        | none =>
            simp only [recorded, call, handedOut]
            exact ⟨[], .none rfl rfl⟩
        | some n =>
            have passes := passes_out cursors (not_lt.mp beyond) call
            rw [call] at passes
            simp only [recorded, call, handedOut] at passes ⊢
            exact ⟨_, passes⟩

variable (sys) in
theorem send_passes {sz : Nat} (cursors : Cursors w.stream) (high : sz < 2 ^ 63)
    (sent : w.stream.pos + sz ≤ w.stream.eod →
      ((recorded sys).send (outgoing w.stream sz) sz w.env).1 ≠ none) :
    ∃ given, Passes w (bytestreamSend (recorded sys) sz w).2 [] given := by
  rw [bytestreamSend, toSigned_of_range (by omega) (by omega)]
  by_cases beyond : w.stream.pos + sz > w.stream.eod
  · rw [if_pos beyond]
    exact ⟨[], .none rfl rfl⟩
  · rw [if_neg beyond]
    have answered := sent (not_lt.mp beyond)
    cases call : sys.send (outgoing w.stream sz) sz w.env.1 with
    | mk took env =>
        cases took with
        | none =>
            simp only [recorded, call, handedOut] at answered
            exact absurd rfl answered
        | some n =>
            have passes := passes_out cursors (not_lt.mp beyond) call
            rw [call] at passes
            simp only [recorded, call, handedOut] at passes ⊢
            exact ⟨_, passes⟩

/-- An append, of which the client is told whether it has been made. -/
theorem appended_passes (cursors : Cursors w.stream) (wire : next.env.2 = w.env.2)
    (effect : answer < 0 ∧ Roomier w.stream next.stream ∨ 0 ≤ answer ∧ Extended w.stream next.stream bytes) :
    ∃ taken, Passes w (if 0 ≤ answer then next.takes bytes else next) taken [] := by
  rcases effect with ⟨refused, roomier⟩ | ⟨made, extended⟩
  · rw [if_neg (not_le.mpr refused)]
    exact ⟨[], .none wire (unsent_roomier roomier)⟩
  · rw [if_pos made]
    refine ⟨bytes, ?_, ?_⟩
    · rw [World.takes, wire, List.append_nil]
    · exact unsent_extended cursors extended

theorem appendFormatted_wire {sz : Nat} {text : Option Text}
    (run : appendFormatted (recorded sys) sz text w = .ok (answer, next)) : next.env.2 = w.env.2 := by
  have wire := makeRoom_wire sys sz w
  cases room : makeRoom (recorded sys) sz w with
  | mk grown middle =>
      rw [room] at wire
      cases grown with
      | false =>
          simp only [appendFormatted, room] at run
          cases run
          exact wire
      | true =>
          simp only [appendFormatted, room] at run
          rcases Memory.of_bind_ok run with ⟨⟨nused, after⟩, printed, rest⟩
          have kept : after.env.2 = middle.env.2 := by
            cases text with
            | none =>
                cases printed
                rfl
            | some text =>
                rcases Memory.of_bind_ok printed with ⟨poked, done, told⟩
                cases told
                rw [poke_wire done]
          dsimp only at rest
          split_ifs at rest
          all_goals
            cases rest
            exact kept.trans wire

theorem nprintf_passes {sz : UInt64} {text : Text} (cursors : Cursors w.stream)
    (fits : Fits sz.toNat (printed sz.toNat text) w.stream)
    (run : appendFormatted (recorded sys) sz.toNat (some text) w = .ok (answer, next)) :
    ∃ taken, Passes w (if 0 ≤ answer then next.takes text.chars else next) taken [] := by
  rcases appendFormatted_spec (recorded sys) cursors.buffered sz.toNat_lt fits with ⟨answer', next', run', effect⟩
  cases run.symm.trans run'
  apply appended_passes cursors (appendFormatted_wire run)
  rcases effect with ⟨-, refused, roomier⟩ | ⟨-, told, extended⟩
  · exact .inl ⟨refused, roomier⟩
  · exact .inr ⟨by omega, extended⟩

theorem cat_passes {piece : Piece} (cursors : Cursors w.stream) (short : piece.bytes.length < 2 ^ 31)
    (run : bytestreamCat (recorded sys) piece w = .ok (answer, next)) :
    ∃ taken, Passes w (if 0 ≤ answer then next.takes piece.bytes else next) taken [] := by
  have fits := need_or_room cursors.buffered cursors.size (Int.natCast_nonneg piece.bytes.length) (by omega)
  rcases bytestreamCat_spec (recorded sys) cursors.buffered (fits.imp_right .inr) with ⟨answer', next', run', effect⟩
  cases run.symm.trans run'
  have wire := makeRoom_wire sys piece.bytes.length w
  cases room : makeRoom (recorded sys) piece.bytes.length w with
  | mk grown middle =>
      rw [room] at wire effect
      simp only [bytestreamCat, room] at run
      cases grown with
      | false =>
          cases run
          rcases effect with ⟨-, -, roomier⟩ | ⟨wrong, -⟩
          · exact appended_passes cursors wire (.inl ⟨by decide, roomier⟩)
          · cases wrong
      | true =>
          rcases Memory.of_bind_ok run with ⟨after, poked, told⟩
          rcases Prod.mk.inj (Except.ok.inj told) with ⟨same, rfl⟩
          have kept : after.env.2 = w.env.2 := by rw [poke_wire poked, wire]
          have counted : 0 ≤ answer := by
            rw [← same, Int.bmod_eq_of_le] <;> omega
          rcases effect with ⟨wrong, -⟩ | ⟨-, extended⟩
          · cases wrong
          · exact appended_passes cursors kept (.inr ⟨counted, extended⟩)

/-- Each call passes on what it takes. -/
theorem relay_passes (op : StreamOp) (cursors : Cursors w.stream) (relays : Relays sys op w)
    (run : relay sys op w = .ok (answer, next)) : ∃ taken given, Passes w next taken given := by
  rcases relays with ⟨heeds, keeps⟩
  rcases Memory.of_bind_ok run with ⟨⟨answer', after⟩, stepped, told⟩
  cases told
  have silent : op.bytes = [] → (if 0 ≤ answer then after.takes op.bytes else after) = after := by
    intro none
    rw [none, World.takes, List.append_nil, ite_self]
  cases op with
  | readMore sz | recvMore sz =>
      rcases transferIn_passes cursors heeds.1 heeds.2 stepped with ⟨taken, passes⟩
      rw [silent rfl]
      exact ⟨taken, [], passes⟩
  | write sz =>
      have same : (bytestreamWrite (recorded sys) sz.toNat w).2 = after := congrArg Prod.snd (Except.ok.inj stepped)
      rcases write_passes sys cursors heeds with ⟨given, passes⟩
      rw [same] at passes
      rw [silent rfl]
      exact ⟨[], given, passes⟩
  | stderrWrite sz => cases keeps
  | send sz =>
      have same : (bytestreamSend (recorded sys) sz.toNat w).2 = after := congrArg Prod.snd (Except.ok.inj stepped)
      rcases send_passes sys cursors heeds.1 heeds.2 with ⟨given, passes⟩
      rw [same] at passes
      rw [silent rfl]
      exact ⟨[], given, passes⟩
  | consumeData source =>
      rcases Memory.of_bind_ok stepped with ⟨⟨res, final⟩, consumed, same⟩
      cases same
      rcases consumeData_passes source cursors heeds consumed with ⟨taken, passes⟩
      rw [silent rfl]
      exact ⟨taken, [], passes⟩
  | nprintf sz text | vnprintf sz text =>
      rcases heeds with ⟨t, rfl, fits⟩
      rcases nprintf_passes cursors fits stepped with ⟨taken, passes⟩
      exact ⟨taken, [], passes⟩
  | cat piece =>
      rcases cat_passes cursors keeps stepped with ⟨taken, passes⟩
      exact ⟨taken, [], passes⟩
  | rewind =>
      cases stepped
      rw [silent rfl]
      refine ⟨[], [], .none rfl ?_⟩
      rw [unsent_done cursors keeps]
      exact unsent_done cursors.rewound rfl
  | recycle ngrowsz start =>
      rcases bytestreamRecycle_spec (recorded sys) cursors.buffered cursors.order heeds.1 heeds.2 with
        ⟨n, next', run', same, low, few, shifted, -⟩
      cases stepped.symm.trans run'
      have before := heeds.1
      have nonneg := cursors.nonneg
      rw [silent rfl]
      refine ⟨[], [], .none (by rw [same]) ?_⟩
      exact unsent_shifted cursors shifted low (by omega)

/-- A call that the client may make. -/
theorem relay_ok (op : StreamOp) (cursors : Cursors w.stream) (relays : Relays sys op w) :
    ∃ answer next, relay sys op w = .ok (answer, next) ∧ Cursors next.stream := by
  rcases step_cursors op cursors relays.1 with ⟨answer, next, run, after, -⟩
  refine ⟨answer, if 0 ≤ answer then next.takes op.bytes else next, ?_, ?_⟩
  · rw [relay, run]
    rfl
  · split
    · exact after
    · exact after

theorem run_carries {ops : List StreamOp} (cursors : Cursors w.stream) (carries : Carries w)
    (relays : Along (relay sys) (Relays sys) ops w) :
    ∃ answers next, execute (relay sys) ops w = .ok (answers, next) ∧ Carries next := by
  induction ops generalizing w with
  | nil => exact ⟨[], w, rfl, carries⟩
  | cons op ops ih =>
      rcases relay_ok op cursors relays.1 with ⟨answer, middle, called, after⟩
      rcases relay_passes op cursors relays.1 called with ⟨taken, given, passes⟩
      rcases ih after (passes.carries carries) (relays.2 answer middle called) with ⟨answers, next, rest, last⟩
      exact ⟨answer :: answers, next, execute_step called rest, last⟩

/-- Each read gives three bytes, and each write takes two at most. -/
def haltingSystem : System Unit where
  pagesize := 4096
  pagesize_pos := page_pos
  realloc _ env := (true, env)
  junk _ _ := 0
  read _ env := (some [1, 2, 3], env)
  recv _ env := (some [1, 2, 3], env)
  write bytes _ env := (some (min bytes.length 2), env)
  send bytes _ env := (some (min bytes.length 2), env)

end MnCommon.Bytestream
