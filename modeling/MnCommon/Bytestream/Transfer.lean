import MnCommon.Bytestream.Buffer

/-! What each function of a stream does to its data and to its cursors. -/

namespace MnCommon.Bytestream

open Memory (Fault)

variable {E : Type} {sys : System E} {w : World E}

/-- The bytes that `vsnprintf` writes. -/
def printed (sz : Nat) (text : Text) : List UInt8 :=
  if sz = 0 then [] else text.chars.take (sz - 1) ++ [0]

theorem length_printed (sz : Nat) (text : Text) : (printed sz text).length ≤ sz := by
  rw [printed]
  split
  · exact Nat.zero_le _
  · simp only [List.length_append, List.length_take, List.length_singleton]
    omega

/-- Either the stream sees that it has to grow for `amount` bytes or what is
written fits in as it is. -/
def Fits (amount : Int) (bytes : List UInt8) (s : MnByteStream) : Prop :=
  0 < need amount s ∨ bytes = [] ∨ s.eod + bytes.length ≤ s.data.length

/-- Where the stream has made room, the bytes fit in. -/
theorem Fits.after {amount : Int} {bytes : List UInt8} {next : World E} (fits : Fits amount bytes w.stream)
    (buffered : Buffered w.stream) (low : bytes.length ≤ amount) (high : amount < 2 ^ 64)
    (room : makeRoom sys amount w = (true, next)) :
    Roomier w.stream next.stream ∧
      (bytes = [] ∨ next.stream.eod + bytes.length ≤ next.stream.data.length) := by
  rcases makeRoom_spec buffered (by omega) high room with ⟨roomier, enough, same, -⟩
  refine ⟨roomier, ?_⟩
  by_cases missing : 0 < need amount w.stream
  · have inside := enough rfl missing
    rw [roomier.eod]
    exact .inr (by omega)
  · rcases same missing with ⟨-, rfl⟩
    exact fits.resolve_left missing

theorem transferIn_read {call : Nat → E → Option (List UInt8) × E} {sz : Int} {middle : World E}
    {got : List UInt8} {env : E} (buffered : Buffered w.stream) (low : 0 ≤ sz) (high : sz < 2 ^ 63)
    (fits : 0 < need sz w.stream ∨ w.stream.eod + sz ≤ w.stream.data.length)
    (room : makeRoom sys sz w = (true, middle)) (read : call (toSize sz) middle.env = (some got, env)) :
    ∃ next, transferIn sys call sz w = .ok ((got.take (toSize sz)).length, next) ∧ next.env = env ∧
      Extended w.stream next.stream (got.take (toSize sz)) := by
  have size := toSize_of_range low (by omega)
  have short : (got.take (toSize sz)).length ≤ toSize sz := List.length_take_le ..
  have fit : Fits sz (got.take (toSize sz)) w.stream := by
    rcases fits with missing | inside
    · exact .inl missing
    · exact .inr (.inr (by omega))
  rcases fit.after buffered (by omega) (by omega) room with ⟨roomier, inside⟩
  have buffered' : Buffered (World.mk middle.stream env).stream := roomier.buffered
  rcases poke_advance buffered' inside le_rfl with ⟨next, poked, same, -, extended⟩
  rw [List.take_length] at extended
  let after : MnByteStream := { next.stream with eod := next.stream.eod + (got.take (toSize sz)).length }
  refine ⟨⟨after, next.env⟩, ?_, same, roomier.extend extended⟩
  simp only [transferIn, room, read, poked]
  rfl

variable (sys)

theorem transferIn_spec {call : Nat → E → Option (List UInt8) × E} {sz : Int}
    (buffered : Buffered w.stream) (low : 0 ≤ sz) (high : sz < 2 ^ 63)
    (fits : 0 < need sz w.stream ∨ w.stream.eod + sz ≤ w.stream.data.length) :
    ∃ answer next, transferIn sys call sz w = .ok (answer, next) ∧
      ((answer = -1 ∧ Roomier w.stream next.stream) ∨
        ∃ bytes : List UInt8, answer = bytes.length ∧ Extended w.stream next.stream bytes) := by
  cases room : makeRoom sys sz w with
  | mk grown middle =>
      have roomier := (makeRoom_spec buffered low (by omega) room).1
      cases grown with
      | false => exact ⟨-1, middle, by simp only [transferIn, room], .inl ⟨rfl, roomier⟩⟩
      | true =>
          cases read : call (toSize sz) middle.env with
          | mk got env =>
              cases got with
              | none =>
                  exact ⟨-1, ⟨middle.stream, env⟩, by simp only [transferIn, room, read],
                    .inl ⟨rfl, roomier⟩⟩
              | some got =>
                  rcases transferIn_read buffered low high fits room read with ⟨next, run, -, extended⟩
                  exact ⟨_, next, run, .inr ⟨_, rfl, extended⟩⟩

/-- What a formatted append leaves behind. -/
theorem appendFormatted_spec {sz : Nat} {text : Text} (buffered : Buffered w.stream) (high : sz < 2 ^ 64)
    (fits : Fits sz (printed sz text) w.stream) :
    ∃ answer next, appendFormatted sys sz (some text) w = .ok (answer, next) ∧
      ((((makeRoom sys sz w).1 = false ∨ toSigned sz ≤ text.chars.length) ∧ answer < 0 ∧
          Roomier w.stream next.stream) ∨
        (((makeRoom sys sz w).1 = true ∧ text.chars.length < toSigned sz) ∧
          answer = text.chars.length ∧ Extended w.stream next.stream text.chars)) := by
  cases room : makeRoom sys sz w with
  | mk grown middle =>
      have roomier := (makeRoom_spec buffered (by omega) (by omega) room).1
      cases grown with
      | false =>
          refine ⟨NPRINTF_ERROR, middle, ?_, .inl ⟨.inl rfl, by decide, roomier⟩⟩
          simp only [appendFormatted, room]
      | true =>
          have length := length_printed sz text
          rcases fits.after buffered (by omega) (by omega) room with ⟨-, inside⟩
          by_cases long : toSigned sz ≤ text.chars.length
          · rcases poke_end roomier.buffered inside with ⟨next, poked, -, kept, -⟩
            refine ⟨NPRINTF_NEEDMORE, next, ?_, .inl ⟨.inr long, by decide, roomier.trans kept⟩⟩
            rw [printed] at poked
            simp only [appendFormatted, room, vsnprintf, poked, bind, Except.bind, pure, Except.pure,
              if_pos long]
          · have whole : printed sz text = text.chars ++ [0] := by
              have short : text.chars.length < sz := by
                have := toSigned_eq_ite sz
                omega
              rw [printed, if_neg (by omega), List.take_of_length_le (by omega)]
            have behind : text.chars.length ≤ (printed sz text).length := by
              rw [whole]
              simp
            rcases poke_advance roomier.buffered inside behind with ⟨next, poked, -, -, extended⟩
            rw [whole, List.take_left] at extended
            rw [printed] at poked
            let after : MnByteStream := { next.stream with eod := next.stream.eod + text.chars.length }
            refine ⟨_, ⟨after, next.env⟩, ?_, .inr ⟨⟨rfl, not_le.mp long⟩, rfl, roomier.extend extended⟩⟩
            simp only [appendFormatted, room, vsnprintf, poked, bind, Except.bind, pure, Except.pure,
              if_neg long]
            rfl

/-- Without room nothing grows and the bytes do not fit. -/
theorem unfit {amount : Int} {bytes : List UInt8} (unfit : ¬ Fits amount bytes w.stream) :
    makeRoom sys amount w = (true, w) ∧ poke w.stream.eod bytes w = .error .dangling := by
  simp only [Fits, not_or, not_le] at unfit
  rcases unfit with ⟨enough, nonempty, beyond⟩
  rw [need] at enough
  exact ⟨by simp only [makeRoom, if_neg enough], poke_end_fault nonempty beyond⟩

theorem appendFormatted_fault {sz : Nat} {text : Text} (beyond : ¬ Fits sz (printed sz text) w.stream) :
    appendFormatted sys sz (some text) w = .error .dangling := by
  rcases unfit sys beyond with ⟨room, fault⟩
  rw [printed] at fault
  simp only [appendFormatted, room, vsnprintf, fault]
  rfl

theorem bytestreamCat_spec {piece : Piece} (buffered : Buffered w.stream)
    (fits : Fits piece.bytes.length piece.bytes w.stream) :
    ∃ answer next, bytestreamCat sys piece w = .ok (answer, next) ∧
      ((makeRoom sys piece.bytes.length w).1 = false ∧ answer = CAT_ERROR ∧
          Roomier w.stream next.stream ∨
        (makeRoom sys piece.bytes.length w).1 = true ∧ Extended w.stream next.stream piece.bytes) := by
  have short := piece.short
  cases room : makeRoom sys piece.bytes.length w with
  | mk grown middle =>
      have roomier := (makeRoom_spec buffered (by omega) (by omega) room).1
      cases grown with
      | false =>
          refine ⟨CAT_ERROR, middle, ?_, .inl ⟨rfl, rfl, roomier⟩⟩
          simp only [bytestreamCat, room]
      | true =>
          rcases fits.after buffered le_rfl (by omega) room with ⟨-, inside⟩
          rcases poke_advance roomier.buffered inside le_rfl with ⟨next, poked, -, -, extended⟩
          rw [List.take_length] at extended
          let after : MnByteStream := { next.stream with eod := next.stream.eod + piece.bytes.length }
          refine ⟨Int.bmod piece.bytes.length (2 ^ 32), ⟨after, next.env⟩, ?_,
            .inr ⟨rfl, roomier.extend extended⟩⟩
          simp only [bytestreamCat, room, poked]
          rfl

theorem bytestreamCat_fault {piece : Piece} (beyond : ¬ Fits piece.bytes.length piece.bytes w.stream) :
    bytestreamCat sys piece w = .error .dangling := by
  rcases unfit sys beyond with ⟨room, fault⟩
  simp only [bytestreamCat, room, fault]
  rfl

/-- Only the position may change, and it stays in front of the end of the data. -/
structure Advanced (s next : MnByteStream) (n : Int) : Prop where
  same : next = { s with pos := s.pos + n }
  nonneg : 0 ≤ n
  within : s.pos + n ≤ s.eod

theorem bytestreamWrite_spec {sz : Nat} (high : sz < 2 ^ 63) :
    (bytestreamWrite sys sz w).1 = -1 ∧ (bytestreamWrite sys sz w).2.stream = w.stream ∨
      Advanced w.stream (bytestreamWrite sys sz w).2.stream (bytestreamWrite sys sz w).1 := by
  rw [bytestreamWrite, toSigned_of_range (by omega) (by omega)]
  by_cases beyond : w.stream.pos + sz > w.stream.eod
  · rw [if_pos beyond]
    exact .inl ⟨rfl, rfl⟩
  · rw [if_neg beyond]
    cases call : sys.write (outgoing w.stream sz) sz w.env with
    | mk answer env =>
        cases answer with
        | none => exact .inl ⟨rfl, rfl⟩
        | some n =>
            refine .inr ⟨rfl, ?_, ?_⟩
            · simp only
              omega
            · simp only
              omega

theorem bytestreamStderrWrite_spec {sz : Nat} (high : sz < 2 ^ 63) :
    (bytestreamStderrWrite sys sz w).1 = -1 ∧ (bytestreamStderrWrite sys sz w).2.stream = w.stream ∨
      Advanced w.stream (bytestreamStderrWrite sys sz w).2.stream (bytestreamStderrWrite sys sz w).1 := by
  rw [bytestreamStderrWrite, toSigned_of_range (by omega) (by omega)]
  split
  · exact .inl ⟨rfl, rfl⟩
  · exact bytestreamWrite_spec sys high

theorem bytestreamSend_spec {sz : Nat} (high : sz < 2 ^ 63) (sent : w.stream.pos + sz ≤ w.stream.eod →
      (sys.send (outgoing w.stream sz) sz w.env).1 ≠ none) :
    (bytestreamSend sys sz w).1 = -1 ∧ (bytestreamSend sys sz w).2.stream = w.stream ∨
      Advanced w.stream (bytestreamSend sys sz w).2.stream (bytestreamSend sys sz w).1 := by
  rw [bytestreamSend, toSigned_of_range (by omega) (by omega)]
  by_cases beyond : w.stream.pos + sz > w.stream.eod
  · rw [if_pos beyond]
    exact .inl ⟨rfl, rfl⟩
  · rw [if_neg beyond]
    have answered := sent (not_lt.mp beyond)
    cases call : sys.send (outgoing w.stream sz) sz w.env with
    | mk answer env =>
        cases answer with
        | none => exact absurd (congrArg Prod.fst call) answered
        | some n =>
            refine .inr ⟨rfl, ?_, ?_⟩
            · simp only
              omega
            · simp only
              omega

/-- The first `n` bytes are given back. -/
structure Shifted (s next : MnByteStream) (n : Int) : Prop where
  eod : next.eod = s.eod - n
  pos : next.pos = s.pos - n
  growsz : next.growsz = s.growsz
  content : content next = (content s).drop n.toNat
  buffered : Buffered next
  positive : 0 ≤ s.sz → 0 ≤ next.sz

/-- What the rounding of an offset takes away. -/
theorem tmod_bounds {a b : Int} (nonneg : 0 ≤ a) (positive : 0 ≤ b) : 0 ≤ a.tmod b ∧ a.tmod b ≤ a := by
  refine ⟨Int.tmod_nonneg _ nonneg, ?_⟩
  rw [Int.tmod_eq_emod_of_nonneg nonneg, Int.emod_def]
  have multiple := Int.mul_nonneg positive (Int.ediv_nonneg nonneg positive)
  omega

theorem slice_content {s : MnByteStream} {n : Int} : slice s.data n s.eod = (content s).drop n.toNat := rfl

theorem bytestreamRecycle_spec {ngrowsz start : Int} (buffered : Buffered w.stream)
    (order : w.stream.pos ≤ w.stream.eod) (low : start ≤ w.stream.pos)
    (heeds : 0 ≤ start ∨ start - start.tmod sys.pagesize ≤ w.stream.growsz * ngrowsz) :
    ∃ n next, bytestreamRecycle sys ngrowsz start w = .ok (n, next) ∧ next.env = w.env ∧
      0 ≤ n ∧ (n = 0 ∨ n ≤ start) ∧ Shifted w.stream next.stream n ∧ next.stream.sz = w.stream.sz := by
  have stay : Shifted w.stream w.stream 0 := ⟨by omega, by omega, rfl, by simp, buffered, id⟩
  by_cases far : start - start.tmod sys.pagesize > w.stream.growsz * ngrowsz
  · have nonneg := heeds.resolve_right (by omega)
    rcases tmod_bounds nonneg (Int.natCast_nonneg sys.pagesize) with ⟨rest, least⟩
    rcases buffered with ⟨positive, inside, memory, lower, upper, small, debt⟩
    generalize shift : start - start.tmod sys.pagesize = n at far
    have length : (slice w.stream.data n w.stream.eod).length = (w.stream.eod - n).toNat := by
      simp only [slice, List.length_drop, List.length_take]
      omega
    have room : 0 + (slice w.stream.data n w.stream.eod).length ≤ w.stream.data.length := by omega
    let after : MnByteStream := { w.stream with
      data := splice w.stream.data 0 (slice w.stream.data n w.stream.eod)
      eod := w.stream.eod - n
      pos := w.stream.pos - n }
    have kept : after.data.length = w.stream.data.length := length_splice room
    have taken := take_splice_all room
    rw [length, Nat.zero_add, List.take_zero, List.nil_append, slice_content] at taken
    refine ⟨n, ⟨after, w.env⟩, ?_, rfl, by omega, .inr (by omega), ?_, rfl⟩
    · have legal : 0 ≤ n ∧ n ≤ w.stream.eod ∧ w.stream.eod ≤ w.stream.data.length := by omega
      simp only [bytestreamRecycle, shift]
      rw [if_pos far, if_pos legal]
    · refine ⟨rfl, rfl, rfl, taken, ?_, id⟩
      refine ⟨?_, ?_, kept.trans memory, lower, upper, small, debt⟩
      · change 0 ≤ w.stream.eod - n
        omega
      · rw [kept]
        change w.stream.eod - n ≤ _
        omega
  · exact ⟨0, w, by simp only [bytestreamRecycle, if_neg far], rfl, le_rfl, .inl rfl, stay, rfl⟩

end MnCommon.Bytestream
