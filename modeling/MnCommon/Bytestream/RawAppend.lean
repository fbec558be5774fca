import MnCommon.Bytestream.Append

/-! The macros of `bytestream.h` that put a character or an integer behind the data. They do
not look at whether the buffer has been made larger. -/

namespace MnCommon.Bytestream

open Memory (Fault)

variable {E : Type} (sys : System E)

/-- `(void)bytestream_grow(bs, bs->growsz)`. -/
def growAnyway (w : World E) : World E := (bytestreamGrow sys (toSize w.stream.growsz) w).2

/-- `*(bs->buf.data + bs->eod) = c` and the same for an integer. -/
def putEnd (bytes : List UInt8) (w : World E) : Except Fault (World E) := do
  let w ← poke w.stream.eod bytes w
  return { w with stream := { w.stream with eod := w.stream.eod + bytes.length } }

def scatc (c : UInt8) (w : World E) : Except Fault (World E) :=
  putEnd [c] (if w.stream.sz ≤ w.stream.eod then growAnyway sys w else w)

/-- The loop in front of an integer of `len` bytes. -/
def growUntil (len : Nat) : Nat → World E → Except Fault (World E)
  | 0, _ => .error .outOfFuel
  | fuel + 1, w =>
      if w.stream.sz < toSigned (w.stream.eod + len) then growUntil len fuel (growAnyway sys w) else .ok w

/-- An integer of any type is here the bytes that stand for it. -/
def scati (bytes : List UInt8) (fuel : Nat) (w : World E) : Except Fault (World E) := do
  let w ← growUntil sys bytes.length fuel w
  putEnd bytes w

/-- The machine has the low byte first. -/
def littleEndian : Nat → Nat → List UInt8
  | 0, _ => []
  | len + 1, i => UInt8.ofNat i :: littleEndian len (i / 256)

def scati16 (i : UInt16) (fuel : Nat) (w : World E) : Except Fault (World E) :=
  scati sys (littleEndian 2 i.toNat) fuel w

def scati32 (i : UInt32) (fuel : Nat) (w : World E) : Except Fault (World E) :=
  scati sys (littleEndian 4 i.toNat) fuel w

def scati64 (i : UInt64) (fuel : Nat) (w : World E) : Except Fault (World E) :=
  scati sys (littleEndian 8 i.toNat) fuel w

inductive RawOp where
  | scatc (c : UInt8)
  | scati (bytes : List UInt8)
  | scati16 (i : UInt16)
  | scati32 (i : UInt32)
  | scati64 (i : UInt64)

def rawAppend : RawOp → Nat → World E → Except Fault (World E)
  | .scatc c, _, w => scatc sys c w
  | .scati bytes, fuel, w => scati sys bytes fuel w
  | .scati16 i, fuel, w => scati16 sys i fuel w
  | .scati32 i, fuel, w => scati32 sys i fuel w
  | .scati64 i, fuel, w => scati64 sys i fuel w

/-- The append comes to an end with all of its writes inside of the buffer. -/
def RawAppends (op : RawOp) (w next : World E) : Prop := ∃ fuel, rawAppend sys op fuel w = .ok next

/-- Every append of a run does, and leaves the end of the data inside as well. -/
def RawSafe : List RawOp → World E → Prop
  | [], _ => True
  | op :: ops, w => ∃ next, RawAppends sys op w next ∧ next.stream.eod ≤ next.stream.sz ∧ RawSafe ops next

/-- How many of the next requests for `step` more bytes the allocator grants. -/
def grants (step : Nat) : Nat → Nat → E → Nat
  | 0, _, _ => 0
  | requests + 1, size, env =>
      match allocate sys (size + step) env with
      | (true, env) => grants step requests (size + step) env + 1
      | (false, env) => grants step requests size env

/-- Some requests give the buffer room for `amount` more bytes. -/
def RoomAfter (requests amount : Nat) (w : World E) : Prop :=
  w.stream.eod + amount ≤
    w.stream.sz + w.stream.growsz * grants sys w.stream.growsz.toNat requests w.stream.sz.toNat w.env

/-- There is room, or there will be after some requests; `SCATC` makes one only. -/
def Spacious : RawOp → World E → Prop
  | .scatc _, w => ∃ requests ≤ 1, RoomAfter sys requests 1 w
  | .scati bytes, w => ∃ requests, RoomAfter sys requests bytes.length w
  | .scati16 _, w => ∃ requests, RoomAfter sys requests 2 w
  | .scati32 _, w => ∃ requests, RoomAfter sys requests 4 w
  | .scati64 _, w => ∃ requests, RoomAfter sys requests 8 w

/-- The condition on every append of a run. -/
def RawSpacious : List RawOp → World E → Prop
  | [], _ => True
  | op :: ops, w => Spacious sys op w ∧ ∀ next, RawAppends sys op w next → RawSpacious ops next

/-- What holds of every stream from `bytestream_init`. -/
structure Raw (s : MnByteStream) : Prop where
  buffered : Buffered s
  size : 0 ≤ s.sz
  step : 0 ≤ s.growsz

variable {sys} {w next : World E} {s after : MnByteStream} {bytes : List UInt8} {len fuel : Nat}

theorem Raw.roomier (raw : Raw s) (roomier : Roomier s after) : Raw after := by
  refine ⟨roomier.buffered, roomier.positive raw.size, ?_⟩
  rw [roomier.growsz]
  exact raw.step

theorem Raw.extended (raw : Raw s) (extended : Extended s after bytes) : Raw after := by
  refine ⟨extended.buffered, extended.positive raw.size, ?_⟩
  rw [extended.growsz]
  exact raw.step

theorem Raw.length (raw : Raw s) : (s.data.length : Int) = s.sz := by
  rw [raw.buffered.memory]
  exact Int.toNat_of_nonneg raw.size

theorem Raw.end_le (raw : Raw s) : s.eod ≤ s.sz := by
  rw [← raw.length]
  exact raw.buffered.inside

/-- The size that is asked for. -/
theorem Raw.asked (raw : Raw s) : toSize (s.sz + toSize s.growsz) = s.sz.toNat + s.growsz.toNat := by
  have size := raw.size
  have step := raw.step
  have high := raw.buffered.high
  have bound := raw.buffered.step
  rw [toSize, toSize]
  omega

theorem growAnyway_granted {env : E} (raw : Raw w.stream)
    (granted : allocate sys (w.stream.sz.toNat + w.stream.growsz.toNat) w.env = (true, env)) :
    (growAnyway sys w).env = env ∧ (growAnyway sys w).stream.sz = w.stream.sz + w.stream.growsz ∧
      Roomier w.stream (growAnyway sys w).stream := by
  have short := allocate_short granted
  rw [← raw.asked] at granted short
  have size := raw.size
  have step := raw.step
  have asked := raw.asked
  have enough : w.stream.eod ≤ toSize (w.stream.sz + toSize w.stream.growsz) := by
    have order := raw.end_le
    omega
  have same := toSigned_of_short short
  have grown : bytestreamGrow sys (toSize w.stream.growsz) w = (true, growAnyway sys w) := by
    rw [growAnyway, bytestreamGrow]
    simp only [granted, if_true]
  refine ⟨?_, ?_, (bytestreamGrow_spec raw.buffered enough grown).1⟩
  · rw [growAnyway, bytestreamGrow]
    simp only [granted, if_true]
  · rw [growAnyway, bytestreamGrow]
    simp only [granted, if_true, same]
    omega

theorem growAnyway_refused {env : E} (raw : Raw w.stream)
    (refused : allocate sys (w.stream.sz.toNat + w.stream.growsz.toNat) w.env = (false, env)) :
    growAnyway sys w = ⟨w.stream, env⟩ := by
  rw [← raw.asked] at refused
  rw [growAnyway, bytestreamGrow]
  simp only [refused, Bool.false_eq_true, if_false]

theorem growAnyway_roomier (raw : Raw w.stream) : Roomier w.stream (growAnyway sys w).stream := by
  cases answer : allocate sys (w.stream.sz.toNat + w.stream.growsz.toNat) w.env with
  | mk there env =>
      cases there with
      | true => exact (growAnyway_granted raw answer).2.2
      | false =>
          rw [growAnyway_refused raw answer]
          exact .refl raw.buffered

/-- The room after one request and some more is the room after the others in the state that
the first one leaves. -/
theorem roomAfter_succ {requests amount : Nat} (raw : Raw w.stream) :
    RoomAfter sys (requests + 1) amount w ↔ RoomAfter sys requests amount (growAnyway sys w) := by
  rw [RoomAfter, RoomAfter, grants]
  cases answer : allocate sys (w.stream.sz.toNat + w.stream.growsz.toNat) w.env with
  | mk there env =>
      cases there with
      | true =>
          rcases growAnyway_granted raw answer with ⟨rest, size, roomier⟩
          have sum : (w.stream.sz + w.stream.growsz).toNat = w.stream.sz.toNat + w.stream.growsz.toNat :=
            Int.toNat_add raw.size raw.step
          simp only [rest, size, roomier.eod, roomier.growsz, sum, Int.natCast_add, Int.natCast_one, Int.mul_add,
            Int.mul_one]
          omega
      | false =>
          rw [growAnyway_refused raw answer]

theorem putEnd_fits (raw : Raw w.stream) (room : w.stream.eod + bytes.length ≤ w.stream.sz) :
    ∃ next, putEnd bytes w = .ok next ∧ Extended w.stream next.stream bytes := by
  rw [← raw.length] at room
  rcases poke_advance raw.buffered (.inr room) le_rfl with ⟨middle, poked, -, -, extended⟩
  rw [List.take_length] at extended
  refine ⟨⟨{ middle.stream with eod := middle.stream.eod + bytes.length }, middle.env⟩, ?_, extended⟩
  rw [putEnd, poked]
  rfl

theorem putEnd_fault (raw : Raw w.stream) (full : w.stream.sz < w.stream.eod + bytes.length) :
    putEnd bytes w = .error .dangling := by
  have order := raw.end_le
  have some : bytes ≠ [] := by
    rintro rfl
    rw [List.length_nil] at full
    omega
  rw [← raw.length] at full
  rw [putEnd, poke_end_fault some full]
  rfl

/-- The buffer stays within what an `ssize_t` counts, so that the sum does not wrap. -/
theorem roomAfter_short {requests amount : Nat} (raw : Raw w.stream) (room : RoomAfter sys requests amount w) :
    w.stream.eod + amount < 2 ^ 63 := by
  induction requests generalizing w with
  | zero =>
      have high := raw.buffered.high
      rw [RoomAfter, grants] at room
      omega
  | succ requests ih =>
      have roomier : Roomier w.stream (growAnyway sys w).stream := growAnyway_roomier raw
      have later := ih (raw.roomier roomier) ((roomAfter_succ raw).mp room)
      rwa [roomier.eod] at later

/-- The loop ends as soon as enough requests have been granted. -/
theorem growUntil_ends {requests : Nat} (raw : Raw w.stream) (room : RoomAfter sys requests len w) :
    ∃ fuel next, growUntil sys len fuel w = .ok next ∧ Roomier w.stream next.stream ∧
      next.stream.eod + len ≤ next.stream.sz := by
  have short := roomAfter_short raw room
  have nonneg := raw.buffered.nonneg
  have sum : toSigned (w.stream.eod + len) = w.stream.eod + len := toSigned_of_range (by omega) short
  induction requests generalizing w with
  | zero =>
      rw [RoomAfter, grants] at room
      refine ⟨1, w, ?_, .refl raw.buffered, by omega⟩
      rw [growUntil, sum, if_neg (by omega)]
  | succ requests ih =>
      by_cases missing : w.stream.sz < w.stream.eod + len
      · have roomier : Roomier w.stream (growAnyway sys w).stream := growAnyway_roomier raw
        have later := (roomAfter_succ raw).mp room
        rcases ih (raw.roomier roomier) later (by rwa [roomier.eod]) (by rwa [roomier.eod]) (by rwa [roomier.eod])
          with ⟨fuel, next, ran, roomier', enough⟩
        refine ⟨fuel + 1, next, ?_, roomier.trans roomier', enough⟩
        rw [growUntil, sum, if_pos missing, ran]
      · refine ⟨1, w, ?_, .refl raw.buffered, by omega⟩
        rw [growUntil, sum, if_neg missing]

/-- What the loop has done when it ends. -/
theorem growUntil_grown (raw : Raw w.stream) (ran : growUntil sys len fuel w = .ok next) :
    Roomier w.stream next.stream ∧
      ∃ requests, ∀ amount : Nat, next.stream.eod + amount ≤ next.stream.sz → RoomAfter sys requests amount w := by
  induction fuel generalizing w with
  | zero => cases ran
  | succ fuel ih =>
      rw [growUntil] at ran
      split at ran
      · have roomier : Roomier w.stream (growAnyway sys w).stream := growAnyway_roomier raw
        rcases ih (raw.roomier roomier) ran with ⟨roomier', requests, room⟩
        refine ⟨roomier.trans roomier', requests + 1, ?_⟩
        intro amount enough
        exact (roomAfter_succ raw).mpr (room amount enough)
      · cases ran
        refine ⟨.refl raw.buffered, 0, ?_⟩
        intro amount enough
        rw [RoomAfter, grants]
        omega

theorem growUntil_more (ran : growUntil sys len fuel w = .ok next) (more : Nat) :
    growUntil sys len (fuel + more) w = .ok next := by
  induction fuel generalizing w with
  | zero => cases ran
  | succ fuel ih =>
      rw [growUntil] at ran
      rw [Nat.succ_add, growUntil]
      split at ran
      · next missing => rw [if_pos missing, ih ran]
      · next enough => rw [if_neg enough, ran]

/-- An integer is appended just when there is room for it after some requests. -/
theorem scati_iff (raw : Raw w.stream) :
    (∃ fuel next, scati sys bytes fuel w = .ok next) ↔ ∃ requests, RoomAfter sys requests bytes.length w := by
  constructor
  · rintro ⟨fuel, next, ran⟩
    rcases Memory.of_bind_ok ran with ⟨middle, grown, put⟩
    rcases growUntil_grown raw grown with ⟨roomier, requests, room⟩
    refine ⟨requests, room _ ?_⟩
    by_contra full
    rw [putEnd_fault (raw.roomier roomier) (not_le.mp full)] at put
    cases put
  · rintro ⟨requests, room⟩
    rcases growUntil_ends raw room with ⟨fuel, middle, grown, roomier, enough⟩
    rcases putEnd_fits (raw.roomier roomier) enough with ⟨next, put, -⟩
    refine ⟨fuel, next, ?_⟩
    rw [scati, grown]
    exact put

theorem putEnd_extends (raw : Raw w.stream) (put : putEnd bytes w = .ok next) :
    Extended w.stream next.stream bytes := by
  by_cases room : w.stream.eod + bytes.length ≤ w.stream.sz
  · rcases putEnd_fits raw room with ⟨other, put', extended⟩
    cases put.symm.trans put'
    exact extended
  · rw [putEnd_fault raw (not_le.mp room)] at put
    cases put

theorem scati_extends (raw : Raw w.stream) (ran : scati sys bytes fuel w = .ok next) :
    Extended w.stream next.stream bytes := by
  rcases Memory.of_bind_ok ran with ⟨middle, grown, put⟩
  have roomier := (growUntil_grown raw grown).1
  exact roomier.extend (putEnd_extends (raw.roomier roomier) put)

theorem scati_more (ran : scati sys bytes fuel w = .ok next) (more : Nat) :
    scati sys bytes (fuel + more) w = .ok next := by
  rcases Memory.of_bind_ok ran with ⟨middle, grown, put⟩
  rw [scati, growUntil_more grown more]
  exact put

theorem scatc_room (raw : Raw w.stream) : Roomier w.stream
    (if w.stream.sz ≤ w.stream.eod then growAnyway sys w else w).stream ∧
    ((∃ requests ≤ 1, RoomAfter sys requests 1 w) ↔ w.stream.eod + 1 ≤
      (if w.stream.sz ≤ w.stream.eod then growAnyway sys w else w).stream.sz) := by
  have none : RoomAfter sys 0 1 w ↔ w.stream.eod + 1 ≤ w.stream.sz := by
    rw [RoomAfter, grants]
    omega
  split
  · next full =>
      have roomier : Roomier w.stream (growAnyway sys w).stream := growAnyway_roomier raw
      have one : RoomAfter sys 1 1 w ↔ w.stream.eod + 1 ≤ (growAnyway sys w).stream.sz := by
        rw [roomAfter_succ raw, RoomAfter, grants, roomier.eod]
        omega
      refine ⟨roomier, ?_, ?_⟩
      · rintro ⟨requests, few, room⟩
        rcases Nat.le_one_iff_eq_zero_or_eq_one.mp few with rfl | rfl
        · have enough := none.mp room
          omega
        · exact one.mp room
      · intro enough
        exact ⟨1, le_rfl, one.mpr enough⟩
  · next free =>
      have enough : w.stream.eod + 1 ≤ w.stream.sz := by omega
      exact ⟨.refl raw.buffered, fun _ => enough, fun _ => ⟨0, Nat.zero_le 1, none.mpr enough⟩⟩

theorem scatc_iff {c : UInt8} (raw : Raw w.stream) :
    (∃ next, scatc sys c w = .ok next) ↔ ∃ requests ≤ 1, RoomAfter sys requests 1 w := by
  have room := @scatc_room E sys w raw
  rw [room.2, scatc]
  have eod := room.1.eod
  have raw' := raw.roomier room.1
  revert eod raw'
  generalize (if w.stream.sz ≤ w.stream.eod then growAnyway sys w else w) = middle
  intro eod raw'
  rw [← eod]
  constructor
  · rintro ⟨next, put⟩
    by_contra full
    have beyond : middle.stream.sz < middle.stream.eod + ([c] : List UInt8).length := not_le.mp full
    rw [putEnd_fault raw' beyond] at put
    cases put
  · intro enough
    have room : middle.stream.eod + ([c] : List UInt8).length ≤ middle.stream.sz := enough
    rcases putEnd_fits raw' room with ⟨next, put, -⟩
    exact ⟨next, put⟩

@[simp] theorem length_littleEndian (len i : Nat) : (littleEndian len i).length = len := by
  induction len generalizing i with
  | zero => rfl
  | succ len ih => rw [littleEndian, List.length_cons, ih]

/-- One append comes to a good end just when there is, or will be, room for it. -/
theorem rawAppends_iff {op : RawOp} (raw : Raw w.stream) :
    (∃ next, RawAppends sys op w next) ↔ Spacious sys op w := by
  have swap : (∃ next, RawAppends sys op w next) ↔ ∃ fuel next, rawAppend sys op fuel w = .ok next := exists_comm
  rw [swap]
  cases op with
  | scatc c =>
      have once := @scatc_iff E sys w c raw
      constructor
      · rintro ⟨_, next, ran⟩
        exact once.mp ⟨next, ran⟩
      · intro room
        exact ⟨0, once.mpr room⟩
  | scati bytes => exact scati_iff raw
  | scati16 i =>
      have all := @scati_iff E sys w (littleEndian 2 i.toNat) raw
      rwa [length_littleEndian] at all
  | scati32 i =>
      have all := @scati_iff E sys w (littleEndian 4 i.toNat) raw
      rwa [length_littleEndian] at all
  | scati64 i =>
      have all := @scati_iff E sys w (littleEndian 8 i.toNat) raw
      rwa [length_littleEndian] at all

/-- Then some bytes are behind the data. -/
theorem rawAppends_extends {op : RawOp} (raw : Raw w.stream) (done : RawAppends sys op w next) :
    ∃ bytes, Extended w.stream next.stream bytes := by
  rcases done with ⟨fuel, ran⟩
  cases op with
  | scatc c =>
      have roomier := (@scatc_room E sys w raw).1
      exact ⟨_, roomier.extend (putEnd_extends (raw.roomier roomier) ran)⟩
  | scati bytes => exact ⟨_, scati_extends raw ran⟩
  | scati16 i => exact ⟨_, scati_extends raw ran⟩
  | scati32 i => exact ⟨_, scati_extends raw ran⟩
  | scati64 i => exact ⟨_, scati_extends raw ran⟩

theorem rawAppend_more {op : RawOp} (ran : rawAppend sys op fuel w = .ok next) (more : Nat) :
    rawAppend sys op (fuel + more) w = .ok next := by
  cases op with
  | scatc c => exact ran
  | scati bytes => exact scati_more ran more
  | scati16 i => exact scati_more ran more
  | scati32 i => exact scati_more ran more
  | scati64 i => exact scati_more ran more

theorem rawAppends_unique {op : RawOp} {other : World E} (done : RawAppends sys op w next)
    (again : RawAppends sys op w other) : next = other := by
  rcases done with ⟨fuel, ran⟩
  rcases again with ⟨fuel', ran'⟩
  have one := rawAppend_more ran fuel'
  rw [Nat.add_comm, rawAppend_more ran' fuel] at one
  exact (Except.ok.inj one).symm

theorem rawSafe_iff (ops : List RawOp) (raw : Raw w.stream) : RawSafe sys ops w ↔ RawSpacious sys ops w := by
  induction ops generalizing w with
  | nil => exact Iff.rfl
  | cons op ops ih =>
      constructor
      · rintro ⟨next, done, -, rest⟩
        refine ⟨(rawAppends_iff raw).mp ⟨next, done⟩, ?_⟩
        intro other again
        obtain rfl := rawAppends_unique done again
        rcases rawAppends_extends raw done with ⟨bytes, extended⟩
        exact (ih (raw.extended extended)).mp rest
      · rintro ⟨spacious, rest⟩
        rcases (rawAppends_iff raw).mpr spacious with ⟨next, done⟩
        rcases rawAppends_extends raw done with ⟨bytes, extended⟩
        have raw' := raw.extended extended
        exact ⟨next, done, raw'.end_le, (ih raw').mpr (rest next done)⟩

theorem bytestreamInit_raw {growsz : Int} {env : E} (low : 0 ≤ growsz)
    (done : bytestreamInit sys growsz env = (true, w)) : Raw w.stream := by
  have fresh := (bytestreamInit_fresh done).1
  exact ⟨fresh.buffered (by omega), fresh.size.symm ▸ low, fresh.step.symm ▸ low⟩

/-- A run of appends to a stream of `bytestream_init` is safe just when the buffer has room for each of
them, or gets it from the requests that the append makes. -/
theorem raw_appends_safe {growsz : Int} {env : E} (low : 0 ≤ growsz)
    (done : bytestreamInit sys growsz env = (true, w)) (ops : List RawOp) :
    RawSafe sys ops w ↔ RawSpacious sys ops w :=
  rawSafe_iff ops (bytestreamInit_raw low done)

theorem raw_appends_safe_step : ∃ w, bytestreamInit deafSystem 2 () = (true, w) ∧
    RawSafe deafSystem [.scatc 65, .scati32 7] w ∧ RawSpacious deafSystem [.scatc 65, .scati32 7] w := by
  have made : bytestreamInit deafSystem 2 () = (true, ⟨⟨[0, 0], 2, 2, 0, 0⟩, ()⟩) := rfl
  have first : RawAppends deafSystem (.scatc 65) ⟨⟨[0, 0], 2, 2, 0, 0⟩, ()⟩ ⟨⟨[65, 0], 2, 2, 1, 0⟩, ()⟩ := ⟨0, rfl⟩
  have second : RawAppends deafSystem (.scati32 7) ⟨⟨[65, 0], 2, 2, 1, 0⟩, ()⟩
      ⟨⟨[65, 7, 0, 0, 0, 0], 6, 2, 5, 0⟩, ()⟩ := ⟨3, rfl⟩
  have safe : RawSafe deafSystem [.scatc 65, .scati32 7] ⟨⟨[0, 0], 2, 2, 0, 0⟩, ()⟩ :=
    ⟨_, first, by decide, _, second, by decide, trivial⟩
  exact ⟨_, made, safe, (raw_appends_safe (by decide) made _).mp safe⟩

/-- A stream that does not grow. -/
theorem raw_append_outside : ¬ ∀ (growsz : Int) (w : World Unit), 0 ≤ growsz →
    bytestreamInit deafSystem growsz () = (true, w) → ∀ ops, RawSafe deafSystem ops w := by
  intro all
  have made : bytestreamInit deafSystem 0 () = (true, ⟨⟨[], 0, 0, 0, 0⟩, ()⟩) := rfl
  have safe := all 0 _ le_rfl made [.scatc 65]
  rcases ((rawSafe_iff _ (bytestreamInit_raw le_rfl made)).mp safe).1 with ⟨requests, -, room⟩
  rw [RoomAfter] at room
  simp only [Int.zero_mul] at room
  exact absurd room (by decide)

end MnCommon.Bytestream
