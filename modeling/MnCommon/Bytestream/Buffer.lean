import MnCommon.Bytestream.Model

/-! What the memory of a stream and its end of data have to do with each other,
and what growing it does. -/

namespace MnCommon.Bytestream

open Memory (Fault)

theorem toSigned_eq_ite (n : Int) :
    toSigned n = if n % 2 ^ 64 < 2 ^ 63 then n % 2 ^ 64 else n % 2 ^ 64 - 2 ^ 64 := by
  rw [toSigned, Int.bmod]
  omega

theorem toSigned_of_range {n : Int} (low : -2 ^ 63 ≤ n) (high : n < 2 ^ 63) : toSigned n = n := by
  rw [toSigned_eq_ite]
  split <;> omega

theorem toSize_of_range {n : Int} (low : 0 ≤ n) (high : n < 2 ^ 64) : (toSize n : Int) = n := by
  rw [toSize]
  omega

@[simp] theorem length_splice {data bytes : List UInt8} {start : Nat}
    (inside : start + bytes.length ≤ data.length) : (splice data start bytes).length = data.length := by
  simp only [splice, List.length_append, List.length_take, List.length_drop]
  omega

theorem take_splice {data bytes : List UInt8} {start : Nat}
    (inside : start + bytes.length ≤ data.length) :
    (splice data start bytes).take start = data.take start := by
  rw [splice, List.take_append_of_le_length (by simp; omega), List.take_take, min_self]

theorem take_splice_all {data bytes : List UInt8} {start : Nat}
    (inside : start + bytes.length ≤ data.length) :
    (splice data start bytes).take (start + bytes.length) = data.take start ++ bytes := by
  rw [splice, ← List.append_assoc]
  refine List.take_left' ?_
  simp only [List.length_append, List.length_take]
  omega

@[simp] theorem length_resize (junk : Nat → UInt8) (size : Nat) (data : List UInt8) :
    (resize junk size data).length = size := by
  simp only [resize, List.length_append, List.length_take, List.length_map, List.length_range]
  omega

theorem take_resize {data : List UInt8} {size n : Nat} (junk : Nat → UInt8) (small : n ≤ size)
    (inside : n ≤ data.length) : (resize junk size data).take n = data.take n := by
  rw [resize, List.take_append_of_le_length (by simp; omega), List.take_take, min_eq_left small]

/-- The end of the data lies in the memory of the buffer. A stream that starts
with a growth step below zero has no memory until the first call that adds to it. -/
structure Buffered (s : MnByteStream) : Prop where
  nonneg : 0 ≤ s.eod
  inside : s.eod ≤ s.data.length
  memory : s.data.length = s.sz.toNat
  low : -2 ^ 63 ≤ s.sz
  high : s.sz < 2 ^ 63
  step : s.growsz < 2 ^ 63
  debt : s.sz < 0 → s.growsz = s.sz

/-- The data from the start of the buffer on. -/
def content (s : MnByteStream) : List UInt8 := s.data.take s.eod.toNat

variable {E : Type} {sys : System E} {w next : World E} {amount : Int} {grown : Bool}

/-- The room that a function finds missing for `amount` more bytes. -/
def need (amount : Int) (s : MnByteStream) : Int := toSigned (s.eod + amount - s.sz)

theorem allocate_short {size : Nat} {env after : E} (there : allocate sys size env = (true, after)) :
    size < 2 ^ 63 := by
  simp only [allocate, Prod.mk.injEq, Bool.and_eq_true, decide_eq_true_eq] at there
  exact there.1.1

/-- A stream without data whose buffer has the size that it grows by. -/
structure Fresh (n : Int) (s : MnByteStream) : Prop where
  memory : s.data.length = n.toNat
  size : s.sz = n
  step : s.growsz = n
  eod : s.eod = 0
  pos : s.pos = 0
  short : n < 2 ^ 63

theorem Fresh.buffered {n : Int} {s : MnByteStream} (fresh : Fresh n s) (low : -2 ^ 63 ≤ n) : Buffered s := by
  have short := fresh.short
  have memory := fresh.memory
  refine ⟨fresh.eod.ge, ?_, ?_, ?_, ?_, ?_, fun _ => fresh.step.trans fresh.size.symm⟩
  · rw [fresh.eod]
    exact Int.natCast_nonneg _
  · rw [memory, fresh.size]
  · rwa [fresh.size]
  · rwa [fresh.size]
  · rwa [fresh.step]

theorem Fresh.content_nil {n : Int} {s : MnByteStream} (fresh : Fresh n s) : content s = [] := by
  rw [content, fresh.eod]
  rfl

/-- What `bytestream_init` makes when it gets its memory. -/
theorem bytestreamInit_fresh {n : Int} {env : E} (done : bytestreamInit sys n env = (true, w)) :
    Fresh n w.stream ∧ w.env = if 0 < n then (allocate sys n.toNat env).2 else env := by
  rw [bytestreamInit] at done
  by_cases positive : 0 < n
  · simp only [if_pos positive] at done ⊢
    cases answer : allocate sys n.toNat env with
    | mk there rest =>
        simp only [answer] at done ⊢
        cases there with
        | false => simp at done
        | true =>
            have short := allocate_short answer
            simp only [if_true, Prod.mk.injEq, true_and] at done
            subst done
            exact ⟨⟨by simp, rfl, rfl, rfl, rfl, by omega⟩, rfl⟩
  · simp only [if_neg positive, Prod.mk.injEq, true_and] at done ⊢
    subst done
    exact ⟨⟨(Int.toNat_of_nonpos (not_lt.mp positive)).symm, rfl, rfl, rfl, rfl, by omega⟩, rfl⟩

/-- The memory is the only thing that changes. -/
structure Roomier (s next : MnByteStream) : Prop where
  eod : next.eod = s.eod
  pos : next.pos = s.pos
  growsz : next.growsz = s.growsz
  content : content next = content s
  buffered : Buffered next
  positive : 0 ≤ s.sz → 0 ≤ next.sz

theorem Roomier.refl {s : MnByteStream} (buffered : Buffered s) : Roomier s s :=
  ⟨rfl, rfl, rfl, rfl, buffered, id⟩

/-- The amount by which `makeRoom` grows the buffer makes room for the bytes. -/
theorem room_enough {s : MnByteStream} (buffered : Buffered s) (low : 0 ≤ amount)
    (high : amount < 2 ^ 64) (missing : 0 < need amount s) :
    s.eod + amount ≤ toSize (s.sz + toSize (max (need amount s) s.growsz)) := by
  rcases buffered with ⟨nonneg, inside, memory, lower, upper, step, debt⟩
  rw [need, toSigned_eq_ite] at *
  rw [toSize, toSize] at *
  by_cases negative : s.sz < 0
  · have equal := debt negative
    split at missing <;> split <;> omega
  · split at missing <;> split <;> omega

theorem toSigned_of_short {n : Int} (short : toSize n < 2 ^ 63) : toSigned n = toSize n := by
  rw [toSize] at *
  rw [toSigned_eq_ite]
  omega

theorem bytestreamGrow_spec {incr : Nat} (buffered : Buffered w.stream)
    (more : w.stream.eod ≤ toSize (w.stream.sz + incr))
    (grow : bytestreamGrow sys incr w = (grown, next)) :
    Roomier w.stream next.stream ∧
      (grown = true → next.stream.data.length = toSize (w.stream.sz + incr)) ∧
      (grown = false → next.stream = w.stream) := by
  rw [bytestreamGrow] at grow
  cases answer : allocate sys (toSize (w.stream.sz + incr)) w.env with
  | mk there after =>
      cases there with
      | false =>
          simp only [answer, Bool.false_eq_true, if_false, Prod.mk.injEq] at grow
          rcases grow with ⟨rfl, rfl⟩
          exact ⟨.refl buffered, by simp, fun _ => rfl⟩
      | true =>
          have short := allocate_short answer
          have size := toSigned_of_short short
          have inside := buffered.inside
          have nonneg := buffered.nonneg
          simp only [answer, if_true, Prod.mk.injEq] at grow
          rcases grow with ⟨rfl, rfl⟩
          have kept : (resize (sys.junk w.env) (toSize (w.stream.sz + incr)) w.stream.data).take
              w.stream.eod.toNat = w.stream.data.take w.stream.eod.toNat :=
            take_resize _ (by omega) (by omega)
          refine ⟨⟨rfl, rfl, rfl, kept, ?_, ?_⟩, fun _ => length_resize .., by simp⟩
          · refine ⟨nonneg, ?_, ?_, ?_, ?_, buffered.step, fun negative => ?_⟩
            · simpa using more
            · simp only [length_resize, size, Int.toNat_natCast]
            · simp only [size]
              omega
            · simp only [size]
              omega
            · simp only [size] at negative
              omega
          · simp only [size]
            omega

/-- What `makeRoom` leaves: room for the bytes, if it saw that some was missing. -/
theorem makeRoom_spec (buffered : Buffered w.stream) (low : 0 ≤ amount) (high : amount < 2 ^ 64)
    (room : makeRoom sys amount w = (grown, next)) :
    Roomier w.stream next.stream ∧
      (grown = true → 0 < need amount w.stream → w.stream.eod + amount ≤ next.stream.data.length) ∧
      (¬ 0 < need amount w.stream → grown = true ∧ next = w) ∧
      (grown = false → next.stream = w.stream) := by
  rw [makeRoom] at room
  by_cases missing : 0 < need amount w.stream
  · have enough := room_enough buffered low high missing
    simp only [need] at missing enough
    simp only [missing, if_true] at room
    rcases bytestreamGrow_spec buffered (by omega) room with ⟨roomier, size, same⟩
    refine ⟨roomier, fun done _ => ?_, fun wrong => absurd missing wrong, same⟩
    rw [size done]
    exact enough
  · have enough := missing
    simp only [need] at enough
    simp only [enough, if_false, Prod.mk.injEq] at room
    rcases room with ⟨rfl, rfl⟩
    exact ⟨.refl buffered, fun _ there => absurd there missing, fun _ => ⟨rfl, rfl⟩, by simp⟩

/-- Where the sizes do not wrap, either room is seen to be missing or there is room. -/
theorem need_or_room {s : MnByteStream} (buffered : Buffered s) (nonneg : 0 ≤ s.sz) (low : 0 ≤ amount)
    (high : amount < 2 ^ 63) : 0 < need amount s ∨ s.eod + amount ≤ s.data.length := by
  rcases buffered with ⟨positive, inside, memory, lower, upper, -, -⟩
  rw [need, toSigned_of_range (by omega) (by omega)]
  omega

/-- Bytes that go behind the end of the data. -/
theorem poke_end {bytes : List UInt8} (buffered : Buffered w.stream)
    (fits : bytes = [] ∨ w.stream.eod + bytes.length ≤ w.stream.data.length) :
    ∃ next, poke w.stream.eod bytes w = .ok next ∧ next.env = w.env ∧
      Roomier w.stream next.stream ∧ next.stream.data.length = w.stream.data.length ∧
      next.stream.data.take (w.stream.eod.toNat + bytes.length) = content w.stream ++ bytes := by
  have nonneg := buffered.nonneg
  have inside := buffered.inside
  by_cases empty : bytes = []
  · subst empty
    exact ⟨w, by simp [poke], rfl, .refl buffered, rfl, by simp [content]⟩
  · have within : w.stream.eod + bytes.length ≤ w.stream.data.length := fits.resolve_left empty
    have room : w.stream.eod.toNat + bytes.length ≤ w.stream.data.length := by omega
    have length := length_splice room
    have after : Buffered { w.stream with data := splice w.stream.data w.stream.eod.toNat bytes } :=
      { buffered with
        inside := by simpa only [length] using inside
        memory := length.trans buffered.memory }
    exact ⟨⟨{ w.stream with data := splice w.stream.data w.stream.eod.toNat bytes }, w.env⟩,
      by rw [poke, if_neg empty, if_pos ⟨nonneg, room⟩], rfl,
      ⟨rfl, rfl, rfl, take_splice room, after, id⟩, length, take_splice_all room⟩

theorem poke_end_fault {bytes : List UInt8} (nonempty : bytes ≠ [])
    (beyond : w.stream.data.length < w.stream.eod + bytes.length) :
    poke w.stream.eod bytes w = .error .dangling := by
  rw [poke, if_neg nonempty, if_neg]
  rintro ⟨nonneg, within⟩
  omega

theorem Roomier.trans {s middle last : MnByteStream} (first : Roomier s middle)
    (second : Roomier middle last) : Roomier s last :=
  ⟨second.eod.trans first.eod, second.pos.trans first.pos, second.growsz.trans first.growsz,
    second.content.trans first.content, second.buffered, fun ok => second.positive (first.positive ok)⟩

/-- The data are longer by some bytes at their end. -/
structure Extended (s next : MnByteStream) (bytes : List UInt8) : Prop where
  eod : next.eod = s.eod + bytes.length
  pos : next.pos = s.pos
  growsz : next.growsz = s.growsz
  content : content next = content s ++ bytes
  buffered : Buffered next
  positive : 0 ≤ s.sz → 0 ≤ next.sz

theorem Extended.trans {s middle last : MnByteStream} {bytes more : List UInt8} (first : Extended s middle bytes)
    (second : Extended middle last more) : Extended s last (bytes ++ more) where
  eod := by
    rw [second.eod, first.eod, List.length_append]
    omega
  pos := second.pos.trans first.pos
  growsz := second.growsz.trans first.growsz
  content := by rw [second.content, first.content, List.append_assoc]
  buffered := second.buffered
  positive := fun ok => second.positive (first.positive ok)

theorem Roomier.extend {s middle last : MnByteStream} {bytes : List UInt8} (first : Roomier s middle)
    (second : Extended middle last bytes) : Extended s last bytes := by
  rcases second with ⟨eod, pos, growsz, content, buffered, positive⟩
  rw [first.eod] at eod
  rw [first.content] at content
  exact ⟨eod, pos.trans first.pos, growsz.trans first.growsz, content, buffered,
    fun ok => positive (first.positive ok)⟩

/-- The end of the data moves over some of the bytes that have been put behind it. -/
theorem poke_advance {bytes : List UInt8} {n : Nat} (buffered : Buffered w.stream)
    (fits : bytes = [] ∨ w.stream.eod + bytes.length ≤ w.stream.data.length) (short : n ≤ bytes.length) :
    ∃ next, poke w.stream.eod bytes w = .ok next ∧ next.env = w.env ∧ Roomier w.stream next.stream ∧
      Extended w.stream { next.stream with eod := next.stream.eod + n } (bytes.take n) := by
  rcases poke_end buffered fits with ⟨next, poked, env, roomier, length, behind⟩
  have nonneg := buffered.nonneg
  have inside := buffered.inside
  have within : w.stream.eod + n ≤ next.stream.data.length := by
    rw [length]
    rcases fits with rfl | fits
    · simp only [List.length_nil, Nat.le_zero] at short
      omega
    · omega
  have size : (bytes.take n).length = n := List.length_take_of_le short
  have taken : next.stream.data.take (w.stream.eod.toNat + n) = content w.stream ++ bytes.take n := by
    have front := congrArg (List.take (w.stream.eod.toNat + n)) behind
    have start : (content w.stream).length = w.stream.eod.toNat := by
      rw [content, List.length_take]
      omega
    have all : (content w.stream).take (w.stream.eod.toNat + n) = content w.stream :=
      List.take_of_length_le (by omega)
    rwa [List.take_take, min_eq_left (by omega), List.take_append, all, start,
      Nat.add_sub_cancel_left] at front
  refine ⟨next, poked, env, roomier, ?_, roomier.pos, roomier.growsz, ?_, ?_, roomier.positive⟩
  · rw [size, roomier.eod]
  · have whole : (w.stream.eod + n).toNat = w.stream.eod.toNat + n := by omega
    rw [content, roomier.eod, whole, taken]
  · refine { roomier.buffered with nonneg := ?_, inside := ?_ }
    · simp only [roomier.eod]
      omega
    · simpa only [roomier.eod] using within

end MnCommon.Bytestream
