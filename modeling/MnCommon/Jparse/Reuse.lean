import MnCommon.Jparse.Context

/-! Contexts that are used again. -/

namespace MnCommon.Jparse

open Memory (Fault Along along_iff)
open Bytestream

variable {F U A : Type} {files : Files F} {ctx ctx' : JparseContext U} {env : F} {sz : Int}

/-- How much `bytestream_consume_data` asks for. -/
def request (growsz eod pos : Int) : Int := if pos + growsz - eod ≤ 0 then growsz else pos + growsz - eod

/-- What a stream asks for next. -/
def asked (s : MnByteStream) : Int := request s.growsz s.eod s.pos

/-- What a call of `read` comes to. -/
def Files.answer (files : Files F) (fd : Int) (sz : Int) (env : F) : Consumed × List UInt8 × F :=
  match files.read fd sz.toNat env with
  | (none, env) => (.failed, [], env)
  | (some bytes, env) => (if bytes.take sz.toNat = [] then .eof else .ready, bytes.take sz.toNat, env)

/-- A buffer with the memory that the stream knows of. -/
structure Owned (s : MnByteStream) : Prop where
  buffered : Buffered s
  low : 0 ≤ s.sz
  high : s.sz ≤ 2 * limit
  step : 0 ≤ s.growsz
  short : s.growsz ≤ limit

theorem toSize_eq (low : 0 ≤ sz) (high : sz < 2 ^ 64) : toSize sz = sz.toNat := by
  rw [toSize, Int.emod_eq_of_lt low high]

/-- Memory is granted. -/
theorem bytestreamGrow_granted (files : Files F) (fd : Int) (s : MnByteStream) (env : F) {incr : Nat}
    (low : 0 ≤ s.sz) (high : s.sz + incr < 2 ^ 63) :
    bytestreamGrow (files.system fd) incr ⟨s, env⟩ =
      (true, ⟨{ s with data := resize (files.junk env) (s.sz + incr).toNat s.data, sz := s.sz + incr }, env⟩) := by
  have size : toSize (s.sz + incr) = (s.sz + incr).toNat := toSize_eq (by omega) (by omega)
  have same : toSigned (s.sz + incr) = s.sz + incr := toSigned_of_range (by omega) high
  have small : (s.sz + incr).toNat < 2 ^ 63 := by omega
  simp only [bytestreamGrow, allocate, Files.system, size, same, small, decide_true, Bool.and_self, if_true]

theorem makeRoom_granted (files : Files F) (fd : Int) (s : MnByteStream) (env : F) (low : 0 ≤ s.sz)
    (step : 0 ≤ s.growsz) (short : s.growsz ≤ limit) (nonneg : 0 ≤ s.eod) (some : 0 ≤ sz)
    (fits : s.eod + sz ≤ limit) (high : s.sz < 2 ^ 63) :
    makeRoom (files.system fd) sz ⟨s, env⟩ =
      if s.sz < s.eod + sz then
        (true, ⟨{ s with
          data := resize (files.junk env) (s.sz + max (s.eod + sz - s.sz) s.growsz).toNat s.data
          sz := s.sz + max (s.eod + sz - s.sz) s.growsz }, env⟩)
      else (true, ⟨s, env⟩) := by
  rw [limit] at short fits
  have need : toSigned (s.eod + sz - s.sz) = s.eod + sz - s.sz := toSigned_of_range (by omega) (by omega)
  rw [makeRoom]
  simp only [need]
  by_cases missing : s.sz < s.eod + sz
  · have size : (toSize (max (s.eod + sz - s.sz) s.growsz) : Int) = max (s.eod + sz - s.sz) s.growsz :=
      toSize_of_range (by omega) (by omega)
    rw [if_pos missing, if_pos (by omega), bytestreamGrow_granted files fd s env low (by omega), size]
  · rw [if_neg missing, if_neg (by omega)]

theorem consumeData_ok {readMore : Int → World F → Except Fault (Answer F)} {w next : World F} {n : Int}
    (ran : readMore (asked w.stream) w = .ok (n, next)) :
    bytestreamConsumeData readMore w = .ok (if n = 0 then .eof else if n < 0 then .failed else .ready, next) := by
  rw [asked, request] at ran
  rw [bytestreamConsumeData]
  simp only [ran, bind, Except.bind]
  split_ifs <;> rfl

theorem consumeData_error {readMore : Int → World F → Except Fault (Answer F)} {w : World F} {fault : Fault}
    (ran : readMore (asked w.stream) w = .error fault) :
    bytestreamConsumeData readMore w = .error fault := by
  rw [asked, request] at ran
  rw [bytestreamConsumeData]
  simp only [ran, bind, Except.bind]

theorem asked_nonneg {s : MnByteStream} (step : 0 ≤ s.growsz) : 0 ≤ asked s := by
  rw [asked, request]
  split_ifs <;> omega

theorem poke_sz {start : Int} {bytes : List UInt8} {w next : World F} (poked : poke start bytes w = .ok next) :
    next.stream.sz = w.stream.sz := by
  rw [poke] at poked
  split_ifs at poked
  · cases poked
    rfl
  · cases poked
    rfl

/-- The memory of the buffer is enlarged. -/
def enlarged (files : Files F) (env : F) (n : Int) (s : MnByteStream) : MnByteStream :=
  { s with data := resize (files.junk env) n.toNat s.data, sz := n }

theorem enlarged_owned (files : Files F) (env : F) {n : Int} {s : MnByteStream} (step : 0 ≤ s.growsz)
    (short : s.growsz ≤ limit) (nonneg : 0 ≤ s.eod) (inside : s.eod ≤ s.data.length) (more : s.eod ≤ n)
    (high : n ≤ 2 * limit) :
    Owned (enlarged files env n s) ∧ content (enlarged files env n s) = content s ∧
      (enlarged files env n s).data.length = n := by
  have size : ((enlarged files env n s).data.length : Int) = n := by
    rw [enlarged, length_resize]
    omega
  have large : limit = 2 ^ 61 := rfl
  have buffered : Buffered (enlarged files env n s) := by
    refine ⟨nonneg, ?_, length_resize .., ?_, ?_, ?_, ?_⟩
    · rw [size]
      exact more
    · change -2 ^ 63 ≤ n
      omega
    · change n < 2 ^ 63
      omega
    · change s.growsz < 2 ^ 63
      omega
    · intro wrong
      change n < 0 at wrong
      omega
  have low : 0 ≤ n := by omega
  have front : (enlarged files env n s).data.take s.eod.toNat = s.data.take s.eod.toNat :=
    take_resize (files.junk env) (by omega) (by omega)
  exact ⟨⟨buffered, low, high, step, short⟩, front, size⟩

/-- What is known of a stream that may have another memory than it knows of. -/
structure Usable (s : MnByteStream) : Prop where
  low : 0 ≤ s.sz
  step : 0 ≤ s.growsz
  short : s.growsz ≤ limit
  nonneg : 0 ≤ s.eod
  inside : s.eod ≤ s.data.length

theorem Owned.usable {s : MnByteStream} (owned : Owned s) : Usable s :=
  ⟨owned.low, owned.step, owned.short, owned.buffered.nonneg, owned.buffered.inside⟩

theorem Owned.moved {s : MnByteStream} (owned : Owned s) (pos : Int) : Owned { s with pos := pos } :=
  ⟨{ owned.buffered with }, owned.low, owned.high, owned.step, owned.short⟩

/-- Where room is missing it is made, whatever the buffer has been. -/
theorem makeRoom_owned (files : Files F) (fd : Int) {s : MnByteStream} (env : F) (usable : Usable s)
    (some : 0 ≤ sz) (fits : s.eod + sz ≤ limit) (there : s.sz < s.eod + sz ∨ Owned s) :
    ∃ middle, makeRoom (files.system fd) sz ⟨s, env⟩ = (true, ⟨middle, env⟩) ∧ Owned middle ∧
      middle.eod = s.eod ∧ middle.pos = s.pos ∧ middle.growsz = s.growsz ∧ content middle = content s ∧
      middle.eod + sz ≤ middle.data.length := by
  rcases usable with ⟨low, step, short, nonneg, inside⟩
  have large : limit = 2 ^ 61 := rfl
  have small : s.sz < 2 ^ 63 := by
    rcases there with missing | owned
    · omega
    · have high := owned.high
      omega
  have granted := makeRoom_granted files fd s env low step short nonneg some fits small
  by_cases missing : s.sz < s.eod + sz
  · have more : s.eod ≤ s.sz + max (s.eod + sz - s.sz) s.growsz := by omega
    have high : s.sz + max (s.eod + sz - s.sz) s.growsz ≤ 2 * limit := by omega
    rcases enlarged_owned files env step short nonneg inside more high with ⟨owned, front, size⟩
    rw [if_pos missing] at granted
    refine ⟨_, granted, owned, rfl, rfl, rfl, front, ?_⟩
    change s.eod + sz ≤ ((enlarged files env _ s).data.length : Int)
    rw [size]
    omega
  · rw [if_neg missing] at granted
    have owned := there.resolve_left missing
    have memory := owned.buffered.memory
    exact ⟨s, granted, owned, rfl, rfl, rfl, rfl, by omega⟩

theorem consumed_length (bytes : List UInt8) :
    (if (bytes.length : Int) = 0 then Consumed.eof else if (bytes.length : Int) < 0 then .failed else .ready) =
      if bytes = [] then .eof else .ready := by
  cases bytes with
  | nil => rfl
  | cons c more =>
      have some : ((c :: more).length : Int) ≠ 0 := by simp; omega
      rw [if_neg some, if_neg (by omega), if_neg (List.cons_ne_nil c more)]

/-- What has been answered is put behind the data. -/
theorem readMore_answer (files : Files F) (fd : Int) {s : MnByteStream} (env : F) (usable : Usable s)
    (some : 0 ≤ sz) (fits : s.eod + sz ≤ limit) (there : s.sz < s.eod + sz ∨ Owned s) :
    ∃ n next, bytestreamReadMore (files.system fd) sz ⟨s, env⟩ = .ok (n, ⟨next, (files.answer fd sz env).2.2⟩) ∧
      (if n = 0 then .eof else if n < 0 then .failed else .ready) = (files.answer fd sz env).1 ∧ Owned next ∧
      next.eod = s.eod + (files.answer fd sz env).2.1.length ∧ next.pos = s.pos ∧ next.growsz = s.growsz ∧
      content next = content s ++ (files.answer fd sz env).2.1 := by
  rcases makeRoom_owned files fd env usable some fits there with
    ⟨middle, room, owned, eod, pos, growsz, front, fit⟩
  have size : toSize sz = sz.toNat := by
    have nonneg := usable.nonneg
    rw [limit] at fits
    exact toSize_eq some (by omega)
  rw [Files.answer, bytestreamReadMore, transferIn]
  simp only [room, size]
  have same : (files.system fd).read sz.toNat env = files.read fd sz.toNat env := rfl
  rw [same]
  rcases read : files.read fd sz.toNat env with ⟨got, env'⟩
  cases got with
  | none => exact ⟨-1, middle, rfl, rfl, owned, by simpa using eod, pos, growsz, by simpa using front⟩
  | some got =>
      have length : (got.take sz.toNat).length ≤ sz.toNat := List.length_take_le ..
      have buffered : Buffered (World.mk middle env').stream := owned.buffered
      have within : (World.mk middle env').stream.eod + (got.take sz.toNat).length ≤
          (World.mk middle env').stream.data.length := by
        change middle.eod + (got.take sz.toNat).length ≤ middle.data.length
        omega
      rcases poke_advance buffered (.inr within) le_rfl with ⟨next, poked, env, -, extended⟩
      rw [List.take_length] at extended
      have unchanged := poke_sz poked
      change poke middle.eod _ _ = _ at poked
      refine ⟨(got.take sz.toNat).length, { next.stream with eod := next.stream.eod + (got.take sz.toNat).length },
        ?_, ?_, ?_, ?_, extended.pos.trans pos, extended.growsz.trans growsz, ?_⟩
      · simp only [poked, bind, Except.bind, pure, Except.pure, env]
      · exact consumed_length (got.take sz.toNat)
      · have step : next.stream.growsz = middle.growsz := extended.growsz
        refine ⟨extended.buffered, ?_, ?_, ?_, ?_⟩
        · exact unchanged ▸ owned.low
        · exact unchanged ▸ owned.high
        · exact step ▸ owned.step
        · exact step ▸ owned.short
      · exact extended.eod.trans (congrArg (· + _) eod)
      · exact extended.content.trans (congrArg (· ++ _) front)

theorem consume_refused (files : Files F) (env : F) (reads : ctx.readMore = .bytestream)
    (beyond : limit < ctx.bs.eod + asked ctx.bs) :
    bytestreamConsumeData (ctx.read files) ⟨ctx.bs, env⟩ = .error .abort := by
  apply consumeData_error
  simp only [JparseContext.read, reads]
  exact if_pos beyond

theorem consume_answer (files : Files F) (env : F) (reads : ctx.readMore = .bytestream) (usable : Usable ctx.bs)
    (fits : ctx.bs.eod + asked ctx.bs ≤ limit) (there : ctx.bs.sz < ctx.bs.eod + asked ctx.bs ∨ Owned ctx.bs) :
    ∃ next, bytestreamConsumeData (ctx.read files) ⟨ctx.bs, env⟩ =
        .ok ((files.answer ctx.fd (asked ctx.bs) env).1, ⟨next, (files.answer ctx.fd (asked ctx.bs) env).2.2⟩) ∧
      Owned next ∧ next.eod = ctx.bs.eod + (files.answer ctx.fd (asked ctx.bs) env).2.1.length ∧
      next.pos = ctx.bs.pos ∧ next.growsz = ctx.bs.growsz ∧
      content next = content ctx.bs ++ (files.answer ctx.fd (asked ctx.bs) env).2.1 := by
  rcases readMore_answer files ctx.fd env usable (asked_nonneg usable.step) fits there with
    ⟨n, next, ran, res, after⟩
  refine ⟨next, ?_, after⟩
  have read : ctx.read files (asked ctx.bs) ⟨ctx.bs, env⟩ =
      .ok (n, ⟨next, (files.answer ctx.fd (asked ctx.bs) env).2.2⟩) := by
    simp only [JparseContext.read, reads]
    exact (if_neg (Int.not_lt.mpr fits)).trans ran
  rw [consumeData_ok read, res]

/-- A stream without its memory. -/
structure Lent (s : MnByteStream) : Prop where
  gone : s.data = []
  ended : s.eod = 0
  low : 0 ≤ s.sz
  high : s.sz < 2 ^ 63
  step : 0 ≤ s.growsz
  short : s.growsz ≤ limit

theorem Lent.usable {s : MnByteStream} (lent : Lent s) : Usable s := by
  have eod := lent.ended
  exact ⟨lent.low, lent.step, lent.short, by omega, by omega⟩

/-- Bytes that have been asked for where there seems to be room are lost. -/
theorem consume_lent (files : Files F) (env : F) (reads : ctx.readMore = .bytestream) (lent : Lent ctx.bs) (fits : asked ctx.bs ≤ limit)
    (enough : asked ctx.bs ≤ ctx.bs.sz) :
    bytestreamConsumeData (ctx.read files) ⟨ctx.bs, env⟩ =
      if (files.answer ctx.fd (asked ctx.bs) env).2.1 = [] then
        .ok ((files.answer ctx.fd (asked ctx.bs) env).1, ⟨ctx.bs, (files.answer ctx.fd (asked ctx.bs) env).2.2⟩)
      else .error .dangling := by
  have some := asked_nonneg lent.step
  have granted := makeRoom_granted files ctx.fd ctx.bs env lent.low lent.step lent.short (Int.le_of_eq lent.ended.symm)
    some (by rw [lent.ended]; omega) lent.high
  have size : toSize (asked ctx.bs) = (asked ctx.bs).toNat := by
    rw [limit] at fits
    exact toSize_eq some (by omega)
  have beyond : ¬ limit < ctx.bs.eod + asked ctx.bs := by
    rw [lent.ended]
    omega
  rw [if_neg (by rw [lent.ended]; omega)] at granted
  have read : ctx.read files (asked ctx.bs) ⟨ctx.bs, env⟩ =
      transferIn (files.system ctx.fd) (files.read ctx.fd) (asked ctx.bs) ⟨ctx.bs, env⟩ := by
    simp only [JparseContext.read, reads, if_neg beyond]
    rfl
  simp only [transferIn, granted, size] at read
  rw [Files.answer]
  rcases answered : files.read ctx.fd (asked ctx.bs).toNat env with ⟨got, env'⟩
  rw [answered] at read
  cases got with
  | none => exact consumeData_ok read
  | some got =>
      dsimp only at read ⊢
      by_cases nothing : got.take (asked ctx.bs).toNat = []
      · rw [nothing] at read
        rw [if_pos nothing, if_pos nothing]
        have same : ctx.read files (asked ctx.bs) ⟨ctx.bs, env⟩ = .ok (0, ⟨ctx.bs, env'⟩) := by
          rw [read]
          simp [poke, bind, Except.bind, pure, Except.pure]
        exact consumeData_ok same
      · have some : 0 < (got.take (asked ctx.bs).toNat).length := List.length_pos_iff.mpr nothing
        have lost : poke ctx.bs.eod (got.take (asked ctx.bs).toNat) ⟨ctx.bs, env'⟩ = .error .dangling := by
          apply poke_end_fault nothing
          change (ctx.bs.data.length : Int) < ctx.bs.eod + _
          rw [lent.gone, lent.ended, List.length_nil]
          omega
        rw [lost] at read
        rw [if_neg nothing]
        exact consumeData_error read

/-! Two contexts that a callback cannot tell from each other. -/

structure Alike (a b : JparseContext U) : Prop where
  view : a.view = b.view
  eod : a.bs.eod = b.bs.eod
  growsz : a.bs.growsz = b.bs.growsz
  left : a.readMore = .bytestream
  right : b.readMore = .bytestream

variable {a b : JparseContext U} {c : Client U A}

namespace Alike

theorem pos (alike : Alike a b) : a.bs.pos = b.bs.pos := congrArg View.pos alike.view

theorem fd (alike : Alike a b) : a.fd = b.fd := congrArg View.fd alike.view

theorem asked (alike : Alike a b) : asked a.bs = asked b.bs := by
  rw [Jparse.asked, Jparse.asked, alike.growsz, alike.eod, alike.pos]

theorem put (alike : Alike a b) (pos errorpos : Int) :
    Alike { a with bs := { a.bs with pos := pos }, errorpos := errorpos }
      { b with bs := { b.bs with pos := pos }, errorpos := errorpos } := by
  have data : content a.bs = content b.bs := congrArg View.data alike.view
  have udata : a.udata = b.udata := congrArg View.udata alike.view
  refine ⟨?_, alike.eod, alike.growsz, alike.left, alike.right⟩
  change View.mk (content a.bs) pos errorpos a.udata a.fd = View.mk (content b.bs) pos errorpos b.udata b.fd
  rw [data, udata, alike.fd]

/-- Both have got the same bytes. -/
theorem answered (alike : Alike a b) {s t : MnByteStream} {bytes : List UInt8} (eod : s.eod = a.bs.eod + bytes.length)
    (eod' : t.eod = b.bs.eod + bytes.length) (pos : s.pos = a.bs.pos) (pos' : t.pos = b.bs.pos)
    (growsz : s.growsz = a.bs.growsz) (growsz' : t.growsz = b.bs.growsz) (front : content s = content a.bs ++ bytes)
    (front' : content t = content b.bs ++ bytes) : Alike { a with bs := s } { b with bs := t } := by
  have data : content a.bs = content b.bs := congrArg View.data alike.view
  have udata : a.udata = b.udata := congrArg View.udata alike.view
  have errorpos : a.errorpos = b.errorpos := congrArg View.errorpos alike.view
  refine ⟨?_, ?_, ?_, alike.left, alike.right⟩
  · change View.mk (content s) s.pos a.errorpos a.udata a.fd = View.mk (content t) t.pos b.errorpos b.udata b.fd
    rw [front, front', data, pos, pos', alike.pos, errorpos, udata, alike.fd]
  · rw [eod, eod', alike.eod]
  · rw [growsz, growsz', alike.growsz]

end Alike

theorem run_consume_ok {next : Consumed → Client U A} {res : Consumed} {w : World F}
    (consumed : bytestreamConsumeData (ctx.read files) ⟨ctx.bs, env⟩ = .ok (res, w)) :
    (Client.consume next).run files ctx env = (next res).run files { ctx with bs := w.stream } w.env := by
  rw [Client.run, consumed]

theorem run_consume_error {next : Consumed → Client U A} {fault : Fault}
    (consumed : bytestreamConsumeData (ctx.read files) ⟨ctx.bs, env⟩ = .error fault) :
    (Client.consume next).run files ctx env = .error fault := by
  rw [Client.run, consumed]

/-- Both ask for more than there may be. -/
theorem alike_refused (files : Files F) (env : F) (alike : Alike a b) (next : Consumed → Client U A)
    (beyond : limit < b.bs.eod + asked b.bs) :
    (Client.consume next).run files a env = .error .abort ∧ (Client.consume next).run files b env = .error .abort := by
  have beyond' : limit < a.bs.eod + asked a.bs := by
    rw [alike.eod, alike.asked]
    exact beyond
  exact ⟨run_consume_error (consume_refused files env alike.left beyond'),
    run_consume_error (consume_refused files env alike.right beyond)⟩

/-- Both get the same bytes, and buffers of their own. -/
theorem alike_consumed (files : Files F) (env : F) (alike : Alike a b) (next : Consumed → Client U A)
    (usable : Usable a.bs) (usable' : Usable b.bs) (fits : b.bs.eod + asked b.bs ≤ limit)
    (there : a.bs.sz < a.bs.eod + asked a.bs ∨ Owned a.bs) (there' : b.bs.sz < b.bs.eod + asked b.bs ∨ Owned b.bs) :
    ∃ s t, (Client.consume next).run files a env =
        (next (files.answer b.fd (asked b.bs) env).1).run files { a with bs := s }
          (files.answer b.fd (asked b.bs) env).2.2 ∧
      (Client.consume next).run files b env =
        (next (files.answer b.fd (asked b.bs) env).1).run files { b with bs := t }
          (files.answer b.fd (asked b.bs) env).2.2 ∧
      Alike { a with bs := s } { b with bs := t } ∧ Owned s ∧ Owned t ∧ t.growsz = b.bs.growsz := by
  have fits' : a.bs.eod + asked a.bs ≤ limit := by
    rw [alike.eod, alike.asked]
    exact fits
  rcases consume_answer files env alike.left usable fits' there with ⟨s, consumed, after, eod, pos, growsz, front⟩
  rcases consume_answer files env alike.right usable' fits there' with
    ⟨t, consumed', after', eod', pos', growsz', front'⟩
  rw [alike.asked, alike.fd] at consumed eod front
  exact ⟨s, t, run_consume_ok consumed, run_consume_ok consumed',
    alike.answered eod eod' pos pos' growsz growsz' front front', after, after', growsz'⟩

/-- What a parse tells, and where it leaves the files. -/
def outcome (ran : Except Fault (A × JparseContext U × F)) : Except Fault (A × F) := ran.map fun done => (done.1, done.2.2)

/-- A callback does the same on both, and the memory stays in order. -/
theorem run_alike (alike : Alike a b) (owned : Owned a.bs) (owned' : Owned b.bs) :
    outcome (c.run files a env) = outcome (c.run files b env) := by
  induction c generalizing a b env with
  | done x => rfl
  | look next ih =>
      rw [Client.run, Client.run, alike.view]
      exact ih _ alike owned owned'
  | put pos errorpos rest ih => exact ih (alike.put pos errorpos) (owned.moved pos) (owned'.moved pos)
  | consume next ih =>
      by_cases beyond : limit < b.bs.eod + asked b.bs
      · rcases alike_refused files env alike next beyond with ⟨ran, ran'⟩
        rw [ran, ran']
      · rcases alike_consumed files env alike next owned.usable owned'.usable (Int.not_lt.mp beyond)
          (.inr owned) (.inr owned') with ⟨s, t, ran, ran', onward, after, after', -⟩
        rw [ran, ran']
        exact ih _ onward after after'

/-- A context that owns its buffer keeps it, and what goes wrong is want of memory. -/
theorem run_owned (reads : ctx.readMore = .bytestream) (owned : Owned ctx.bs) :
    match c.run files ctx env with
    | .ok (_, next, _) => Owned next.bs ∧ next.bs.growsz = ctx.bs.growsz
    | .error fault => fault = .abort := by
  induction c generalizing ctx env with
  | done x => exact ⟨owned, rfl⟩
  | look next ih => exact ih _ reads owned
  | put pos errorpos rest ih => exact @ih _ env reads (owned.moved pos)
  | consume next ih =>
      by_cases beyond : limit < ctx.bs.eod + asked ctx.bs
      · rw [run_consume_error (consume_refused files env reads beyond)]
      · rcases consume_answer files env reads owned.usable (Int.not_lt.mp beyond) (.inr owned) with
          ⟨s, consumed, after, -, -, growsz, -⟩
        rw [run_consume_ok consumed, ← growsz]
        exact @ih _ { ctx with bs := s } _ reads after

/-- Whether bytes come before the callback has asked for more than `sz`. There is nothing in the
stream up to then. -/
def Client.Drops (files : Files F) (growsz sz : Int) : Client U A → View U → F → Prop
  | .done _, _, _ => False
  | .look next, view, env => (next view).Drops files growsz sz view env
  | .put pos errorpos rest, view, env => rest.Drops files growsz sz { view with pos := pos, errorpos := errorpos } env
  | .consume next, view, env =>
      let amount := request growsz 0 view.pos
      let answer := files.answer view.fd amount env
      amount ≤ limit ∧ amount ≤ sz ∧
        (answer.2.1 ≠ [] ∨ (next answer.1).Drops files growsz sz view answer.2.2)

theorem outcome_error {ran : Except Fault (A × JparseContext U × F)} {fault : Fault}
    (failed : outcome ran = .error fault) : ran = .error fault := by
  cases ran with
  | error fault' =>
      cases failed
      rfl
  | ok done => cases failed

theorem Lent.here (lent : Lent b.bs) : b.bs.eod + asked b.bs = asked b.bs := by rw [lent.ended, Int.zero_add]

theorem Lent.request (lent : Lent b.bs) : request b.bs.growsz 0 b.view.pos = asked b.bs := by
  rw [asked, lent.ended]
  rfl

/-- Where there seems to be room, it makes no difference that nothing comes. -/
theorem alike_idle (alike : Alike a b) (next : Consumed → Client U A) (owned : Owned a.bs) (lent : Lent b.bs)
    (fits : asked b.bs ≤ limit) (enough : asked b.bs ≤ b.bs.sz)
    (nothing : (files.answer b.fd (asked b.bs) env).2.1 = []) :
    ∃ s, (Client.consume next).run files a env =
        (next (files.answer b.fd (asked b.bs) env).1).run files { a with bs := s }
          (files.answer b.fd (asked b.bs) env).2.2 ∧
      (Client.consume next).run files b env =
        (next (files.answer b.fd (asked b.bs) env).1).run files b (files.answer b.fd (asked b.bs) env).2.2 ∧
      Alike { a with bs := s } b ∧ Owned s := by
  have fits' : a.bs.eod + asked a.bs ≤ limit := by
    rw [alike.eod, alike.asked, lent.here]
    exact fits
  rcases consume_answer files env alike.left owned.usable fits' (.inr owned) with
    ⟨s, consumed, after, eod, pos, growsz, front⟩
  rw [alike.asked, alike.fd] at consumed eod front
  have consumed' := consume_lent files env alike.right lent fits enough
  rw [if_pos nothing] at consumed'
  have still : b.bs.eod = b.bs.eod + (files.answer b.fd (asked b.bs) env).2.1.length := by
    rw [nothing]
    exact (Int.add_zero _).symm
  have kept : content b.bs = content b.bs ++ (files.answer b.fd (asked b.bs) env).2.1 := by
    rw [nothing, List.append_nil]
  exact ⟨s, run_consume_ok consumed, run_consume_ok consumed', alike.answered eod still pos rfl growsz rfl front kept,
    after⟩

/-- Bytes that come where there seems to be room are written to nowhere. -/
theorem Lent.drops (lent : Lent b.bs) (reads : b.readMore = .bytestream) (next : Consumed → Client U A)
    (fits : asked b.bs ≤ limit) (enough : asked b.bs ≤ b.bs.sz)
    (some : (files.answer b.fd (asked b.bs) env).2.1 ≠ []) :
    (Client.consume next).run files b env = .error .dangling := by
  have consumed := consume_lent files env reads lent fits enough
  rw [if_neg some] at consumed
  exact run_consume_error consumed

theorem Owned.outcome_ne (owned : Owned a.bs) (reads : a.readMore = .bytestream) :
    outcome (c.run files a env) ≠ .error .dangling := by
  intro same
  have kept := @run_owned F U A files a env c reads owned
  rw [outcome_error same] at kept
  cases kept

/-- Without the memory all goes as it should until bytes are lost. -/
theorem run_lent (alike : Alike a b) (owned : Owned a.bs) (lent : Lent b.bs) :
    (outcome (c.run files a env) = outcome (c.run files b env) ↔
        ¬ c.Drops files b.bs.growsz b.bs.sz b.view env) ∧
      ∀ x next env', c.run files b env = .ok (x, next, env') →
        (Owned next.bs ∨ Lent next.bs) ∧ next.bs.growsz = b.bs.growsz := by
  induction c generalizing a b env with
  | done x =>
      refine ⟨⟨fun _ => not_false, fun _ => rfl⟩, ?_⟩
      intro x next env' ran
      cases ran
      exact ⟨.inr lent, rfl⟩
  | look next ih =>
      rw [Client.run, Client.run, Client.Drops, alike.view]
      exact ih _ alike owned lent
  | put pos errorpos rest ih =>
      have lent' : Lent { b.bs with pos := pos } := { lent with }
      exact ih (alike.put pos errorpos) (owned.moved pos) lent'
  | consume next ih =>
      rw [Client.Drops, lent.request]
      by_cases beyond : limit < asked b.bs
      · rw [← lent.here] at beyond
        rcases alike_refused files env alike next beyond with ⟨ran, ran'⟩
        rw [ran, ran']
        rw [lent.here] at beyond
        refine ⟨⟨fun _ drops => ?_, fun _ => rfl⟩, by simp⟩
        exact absurd drops.1 (Int.not_le.mpr beyond)
      · have fits : asked b.bs ≤ limit := Int.not_lt.mp beyond
        by_cases missing : b.bs.sz < asked b.bs
        · rw [← lent.here] at missing fits
          rcases alike_consumed files env alike next owned.usable lent.usable fits (.inr owned)
            (.inl missing) with ⟨s, t, ran, ran', onward, after, after', growsz⟩
          rw [lent.here] at missing
          rw [ran, ran']
          refine ⟨⟨fun _ drops => ?_, fun _ => run_alike onward after after'⟩, ?_⟩
          · exact absurd drops.2.1 (Int.not_le.mpr missing)
          · intro x last env' ran
            have kept := @run_owned F U A files { b with bs := t } (files.answer b.fd (asked b.bs) env).2.2
              (next (files.answer b.fd (asked b.bs) env).1) onward.right after'
            rw [ran] at kept
            exact ⟨.inl kept.1, kept.2.trans growsz⟩
        · have enough : asked b.bs ≤ b.bs.sz := Int.not_lt.mp missing
          by_cases nothing : (files.answer b.fd (asked b.bs) env).2.1 = []
          · rcases alike_idle alike next owned lent fits enough nothing with ⟨s, ran, ran', onward, after⟩
            rcases ih (files.answer b.fd (asked b.bs) env).1 onward after lent with ⟨exactly, settled⟩
            rw [ran, ran']
            refine ⟨exactly.trans (not_congr ?_), settled⟩
            constructor
            · exact fun drops => ⟨fits, enough, .inr drops⟩
            · exact fun drops => drops.2.2.resolve_left fun some => some nothing
          · rw [lent.drops alike.right next fits enough nothing]
            refine ⟨⟨fun same _ => ?_, fun straight => absurd ⟨fits, enough, .inl nothing⟩ straight⟩, by simp⟩
            exact owned.outcome_ne alike.left same

/-- A context between two parses. -/
structure Idle (growsz : Nat) (ctx : JparseContext U) : Prop where
  buffer : Owned ctx.bs ∨ Lent ctx.bs
  growsz : ctx.bs.growsz = growsz
  eod : ctx.bs.eod = 0
  pos : ctx.bs.pos = 0
  udata : ctx.udata = none
  errorpos : ctx.errorpos = -1
  fd : ctx.fd = -1

variable {growsz : Nat}

/-- A context that is new owns its buffer. -/
theorem jparseCtxNew_idle (made : jparseCtxNew files growsz env = .ok ctx) : Owned ctx.bs ∧ Idle growsz ctx := by
  rw [jparseCtxNew] at made
  split_ifs at made with large
  cases made
  have small : (growsz : Int) ≤ 2 ^ 61 := Int.not_lt.mp large
  have length : ((List.range growsz).map (files.junk env)).length = growsz := by
    rw [List.length_map, List.length_range]
  have buffered : Buffered { data := (List.range growsz).map (files.junk env), sz := growsz, growsz := growsz, eod := 0, pos := 0 } := by
    refine ⟨Int.le_refl 0, Int.natCast_nonneg _, length, ?_, ?_, ?_, ?_⟩
    · change -2 ^ 63 ≤ (growsz : Int)
      omega
    · change (growsz : Int) < 2 ^ 63
      omega
    · change (growsz : Int) < 2 ^ 63
      omega
    · intro wrong
      change (growsz : Int) < 0 at wrong
      omega
  have high : (growsz : Int) ≤ 2 * limit := by
    rw [limit]
    omega
  have owned : Owned _ := ⟨buffered, Int.natCast_nonneg growsz, high, Int.natCast_nonneg growsz, small⟩
  exact ⟨owned, .inl owned, rfl, rfl, rfl, rfl, rfl, rfl⟩

/-- What could be made once can be made again. -/
theorem jparseCtxNew_again (made : jparseCtxNew files growsz env = .ok ctx) (env' : F) :
    ∃ fresh : JparseContext U, jparseCtxNew files growsz env' = .ok fresh := by
  rw [jparseCtxNew] at made ⊢
  split_ifs at made ⊢ with large
  exact ⟨_, rfl⟩

/-- Empty streams look the same. -/
theorem content_empty {s : MnByteStream} (empty : s.eod = 0) : content s = [] := by
  rw [content, empty]
  rfl

theorem Owned.rewound {s : MnByteStream} (owned : Owned s) : Owned { s with pos := 0, eod := 0 } :=
  ⟨{ owned.buffered with nonneg := Int.le_refl 0, inside := Int.natCast_nonneg _ }, owned.low, owned.high, owned.step,
    owned.short⟩

/-- Whatever has been parsed, the context is idle again. -/
theorem jparseCtxComplete_idle (buffer : Owned ctx.bs ∨ Lent (jparseCtxComplete ctx).bs)
    (step : ctx.bs.growsz = growsz) : Idle growsz (jparseCtxComplete ctx) :=
  ⟨buffer.imp_left Owned.rewound, step, rfl, rfl, rfl, rfl, rfl⟩

/-- What a parse of a file finds. -/
def opened (file : Int) (udata : Option U) (ctx : JparseContext U) : JparseContext U :=
  { ctx with fd := file, readMore := .bytestream, udata := udata }

theorem Idle.alike {a b : JparseContext U} (idle : Idle growsz a) (idle' : Idle growsz b) (file : Int)
    (udata : Option U) : Alike (opened file udata a) (opened file udata b) := by
  refine ⟨?_, idle.eod.trans idle'.eod.symm, idle.growsz.trans idle'.growsz.symm, rfl, rfl⟩
  change View.mk (content a.bs) a.bs.pos a.errorpos udata file = View.mk (content b.bs) b.bs.pos b.errorpos udata file
  rw [content_empty idle.eod, content_empty idle'.eod, idle.pos, idle'.pos, idle.errorpos, idle'.errorpos]

/-- The stream over the data of a client. -/
def given (bytes : Piece) (udata : Option U) (growsz : Nat) : JparseContext U where
  bs := { data := bytes.bytes, sz := bytes.bytes.length, growsz := growsz, eod := bytes.bytes.length, pos := 0 }
  readMore := .parseData
  udata := udata
  errorpos := -1
  fd := -1

/-- A parse of data in memory finds nothing of what has been before. -/
theorem Idle.parseData (idle : Idle growsz ctx) (files : Files F) (bytes : Piece) (cb : Client U A) (udata : Option U)
    (env : F) :
    jparseCtxParseData files bytes cb udata ctx env =
      (cb.run files (given bytes udata growsz) env).map fun done =>
        (done.1, { done.2.1 with bs := { done.2.1.bs with data := [] } }, done.2.2) := by
  rcases ctx with ⟨⟨data, sz, step, eod, pos⟩, readMore, udata', errorpos, fd⟩
  rcases idle with ⟨-, rfl, rfl, rfl, rfl, rfl, rfl⟩
  rw [jparseCtxParseData]
  change (cb.run files (given bytes udata growsz) env >>= _) = _
  rcases cb.run files (given bytes udata growsz) env with fault | ⟨x, next, env'⟩
  · rfl
  · rfl

/-- The callback cannot do anything to the size of the data. -/
theorem run_parseData (reads : ctx.readMore = .parseData) {x : A} {next : JparseContext U} {env' : F}
    (ran : c.run files ctx env = .ok (x, next, env')) :
    next.bs.sz = ctx.bs.sz ∧ next.bs.growsz = ctx.bs.growsz := by
  induction c generalizing ctx env with
  | done y =>
      cases ran
      exact ⟨rfl, rfl⟩
  | look rest ih => exact ih _ reads ran
  | put pos errorpos rest ih =>
      exact @ih { ctx with bs := { ctx.bs with pos := pos }, errorpos := errorpos } env reads ran
  | consume rest ih =>
      have nothing : bytestreamConsumeData (ctx.read files) ⟨ctx.bs, env⟩ = .ok (.eof, ⟨ctx.bs, env⟩) := by
        apply consumeData_ok (n := 0)
        simp only [JparseContext.read, reads]
      rw [run_consume_ok nothing] at ran
      exact @ih .eof ctx env reads ran

/-- What is left when the buffer of a client has been taken back. -/
theorem given_lent {bytes : Piece} {s : MnByteStream} (size : s.sz = bytes.bytes.length) (step : s.growsz = growsz)
    (short : growsz ≤ limit) : Lent { s with data := [], pos := 0, eod := 0 } := by
  have room := bytes.short
  refine ⟨rfl, rfl, ?_, ?_, ?_, ?_⟩
  · change 0 ≤ s.sz
    omega
  · change s.sz < 2 ^ 63
    omega
  · change 0 ≤ s.growsz
    omega
  · change s.growsz ≤ limit
    omega

/-- Bytes come for a stream that has no memory, before its callback has asked for more than its
size. -/
def Parse.Drops (files : Files F) : Parse U A → JparseContext U × F → Prop
  | .fd file cb udata, (ctx, env) =>
      ctx.bs.data = [] ∧ cb.Drops files ctx.bs.growsz ctx.bs.sz (opened file udata ctx).view env
  | .data .., _ => False

def SameAsFresh (files : Files F) (growsz : Nat) (op : Parse U A) (st : JparseContext U × F) : Prop :=
  ∀ fresh, jparseCtxNew files growsz st.2 = .ok fresh →
    outcome (op.run files st.1 st.2) = outcome (op.run files fresh st.2)

/-- What holds between two parses. -/
def Between (growsz : Nat) (st : JparseContext U × F) : Prop :=
  growsz ≤ limit ∧ Idle growsz st.1

theorem Idle.lent (idle : Idle growsz ctx) (gone : ctx.bs.data = []) : Lent ctx.bs := by
  rcases idle.buffer with owned | lent
  · have memory := owned.buffered.memory
    have low := owned.low
    rw [gone, List.length_nil] at memory
    exact ⟨gone, idle.eod, low, by omega, owned.step, owned.short⟩
  · exact lent

theorem Between.fresh {st : JparseContext U × F} (between : Between growsz st) (files : Files F) :
    ∃ fresh : JparseContext U, jparseCtxNew files growsz st.2 = .ok fresh ∧ Owned fresh.bs ∧ Idle growsz fresh := by
  have made : ∃ fresh : JparseContext U, jparseCtxNew files growsz st.2 = .ok fresh := by
    rw [jparseCtxNew, if_neg (Int.not_lt.mpr between.1)]
    exact ⟨_, rfl⟩
  rcases made with ⟨fresh, made⟩
  exact ⟨fresh, made, jparseCtxNew_idle made⟩

theorem sameAsFresh_iff {op : Parse U A} {st : JparseContext U × F} (between : Between growsz st) :
    SameAsFresh files growsz op st ↔ ¬ op.Drops files st := by
  rcases st with ⟨ctx, env⟩
  rcases between.fresh files with ⟨fresh, made, owned, new⟩
  have idle : Idle growsz ctx := between.2
  have only : SameAsFresh files growsz op (ctx, env) ↔
      outcome (op.run files ctx env) = outcome (op.run files fresh env) := by
    constructor
    · exact fun same => same fresh made
    · intro same fresh' made'
      cases made.symm.trans made'
      exact same
  rw [only]
  cases op with
  | data bytes cb udata =>
      have same := (idle.parseData files bytes cb udata env).trans (new.parseData files bytes cb udata env).symm
      exact ⟨fun _ => not_false, fun _ => congrArg outcome same⟩
  | fd file cb udata =>
      change outcome (cb.run files (opened file udata ctx) env) = outcome (cb.run files (opened file udata fresh) env) ↔ _
      by_cases gone : ctx.bs.data = []
      · have lent : Lent (opened file udata ctx).bs := idle.lent gone
        have owned' : Owned (opened file udata fresh).bs := owned
        rw [eq_comm, (run_lent (new.alike idle file udata) owned' lent).1]
        exact not_congr ⟨fun drops => ⟨gone, drops⟩, fun drops => drops.2⟩
      · have kept : Owned (opened file udata ctx).bs := idle.buffer.resolve_right fun lent => gone lent.gone
        exact ⟨fun _ drops => gone drops.1, fun _ => run_alike (idle.alike new file udata) kept owned⟩

theorem parseStep_ok {op : Parse U A} {st : JparseContext U × F} {x : A} {next : JparseContext U × F}
    (stepped : parseStep files op st = .ok (x, next)) :
    ∃ last, op.run files st.1 st.2 = .ok (x, last, next.2) ∧ next.1 = jparseCtxComplete last := by
  rw [parseStep] at stepped
  rcases ran : op.run files st.1 st.2 with fault | ⟨y, last, env'⟩
  · rw [ran] at stepped
    cases stepped
  · rw [ran] at stepped
    cases stepped
    exact ⟨last, rfl, rfl⟩

/-- A parse leaves the context as one may have it between two parses. -/
theorem parseStep_between {op : Parse U A} {st : JparseContext U × F} {x : A} {next : JparseContext U × F}
    (between : Between growsz st) (stepped : parseStep files op st = .ok (x, next)) : Between growsz next := by
  rcases parseStep_ok stepped with ⟨last, ran, completed⟩
  rcases st with ⟨ctx, env⟩
  rcases next with ⟨after, env'⟩
  have idle : Idle growsz ctx := between.2
  dsimp only at ran completed
  subst completed
  refine ⟨between.1, ?_⟩
  cases op with
  | data bytes cb udata =>
      change jparseCtxParseData files bytes cb udata ctx env = _ at ran
      rw [idle.parseData] at ran
      rcases inner : cb.run files (given bytes udata growsz) env with fault | ⟨y, used, env''⟩
      · rw [inner] at ran
        cases ran
      · rw [inner] at ran
        cases ran
        rcases run_parseData rfl inner with ⟨size, step⟩
        apply jparseCtxComplete_idle
        · exact .inr (given_lent size step between.1)
        · exact step
  | fd file cb udata =>
      change cb.run files (opened file udata ctx) env = _ at ran
      by_cases gone : ctx.bs.data = []
      · rcases between.fresh files with ⟨fresh, -, owned, new⟩
        have lent : Lent (opened file udata ctx).bs := idle.lent gone
        have owned' : Owned (opened file udata fresh).bs := owned
        rcases (run_lent (new.alike idle file udata) owned' lent).2 x last env' ran with ⟨buffer, step⟩
        apply jparseCtxComplete_idle
        · exact buffer.imp_right fun lent => { lent with ended := rfl }
        · exact step.trans idle.growsz
      · have kept : Owned (opened file udata ctx).bs := idle.buffer.resolve_right fun lent => gone lent.gone
        have after := @run_owned F U A files (opened file udata ctx) env cb rfl kept
        rw [ran] at after
        apply jparseCtxComplete_idle
        · exact .inl after.1
        · exact after.2.trans idle.growsz

/-- A file with some bytes in it. -/
def someFile : Files (List UInt8) where
  read := fun _ n left => (some (left.take n), left.drop n)
  junk := fun _ _ => 0

def firstBytes : Client Unit (List UInt8) := .consume fun _ => .look fun view => .done view.data

def noBytes : Client Unit (List UInt8) := .done []

end MnCommon.Jparse
