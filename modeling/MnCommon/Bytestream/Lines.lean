import MnCommon.Bytestream.Cursors

/-! The lines that `bytestream_consume_lines` passes on, however the data come in. -/

namespace MnCommon.Bytestream

open Memory (Fault)

/-- The bytes of each line that a line end terminates. -/
def lines (bytes : List UInt8) : List (List UInt8) := (bytes.splitOn 10).dropLast

theorem lines_clean {pending : List UInt8} (clean : 10 ∉ pending) : lines pending = [] := by
  have single : pending.splitOn 10 = [pending] := by
    rw [List.splitOn_eq_splitOnP]
    refine List.splitOnP_eq_singleton fun ch inside => beq_eq_false_iff_ne.mpr ?_
    exact fun same => clean (same ▸ inside)
  rw [lines, single, List.dropLast_singleton]

theorem lines_cons {pending : List UInt8} (rest : List UInt8) (clean : 10 ∉ pending) :
    lines (pending ++ 10 :: rest) = pending :: lines rest := by
  have first : (pending ++ 10 :: rest).splitOn 10 = pending :: rest.splitOn 10 := by
    rw [List.splitOn_eq_splitOnP, List.splitOn_eq_splitOnP]
    have other : ∀ ch ∈ pending, (ch == 10) = false := by
      intro ch inside
      exact beq_eq_false_iff_ne.mpr fun same => clean (same ▸ inside)
    exact List.splitOnP_append_cons_of_forall_mem other 10 rfl rest
  have nonempty : rest.splitOn 10 ≠ [] := by
    rw [List.splitOn_eq_splitOnP]
    exact List.splitOnP_ne_nil _ _
  rw [lines, first, List.dropLast_cons_of_ne_nil nonempty, lines]

theorem slice_append {data : List UInt8} {a b c : Int} (first : a ≤ b) (second : b ≤ c) :
    slice data a b ++ slice data b c = slice data a c := by
  have split : data.take c.toNat = data.take b.toNat ++ (data.take c.toNat).drop b.toNat := by
    have here := List.take_append_drop b.toNat (data.take c.toNat)
    rw [List.take_take, min_eq_left (by omega)] at here
    exact here.symm
  have behind : ((data.take c.toNat).drop b.toNat).drop (a.toNat - (data.take b.toNat).length) =
      (data.take c.toNat).drop b.toNat := by
    rw [List.length_take]
    by_cases short : data.length < b.toNat
    · have empty : (data.take c.toNat).drop b.toNat = [] := by
        rw [List.drop_eq_nil_iff, List.length_take]
        omega
      rw [empty, List.drop_nil]
    · have none : a.toNat - min b.toNat data.length = 0 := by omega
      rw [none, List.drop_zero]
  calc slice data a b ++ slice data b c
      = (data.take b.toNat).drop a.toNat ++
          ((data.take c.toNat).drop b.toNat).drop (a.toNat - (data.take b.toNat).length) := by
        rw [behind, slice, slice]
    _ = (data.take b.toNat ++ (data.take c.toNat).drop b.toNat).drop a.toNat := List.drop_append.symm
    _ = slice data a c := by rw [← split, slice]

theorem slice_single {data : List UInt8} {a : Int} {ch : UInt8} (low : 0 ≤ a)
    (here : data[a.toNat]? = some ch) : slice data a (a + 1) = [ch] := by
  have next : (a + 1).toNat = a.toNat + 1 := by omega
  have inside := (List.getElem?_eq_some_iff.mp here).1
  rw [slice, next, List.take_add_one, here, List.drop_append, List.drop_eq_nil_of_le, List.length_take,
    min_eq_left inside.le, Nat.sub_self]
  · rfl
  · rw [List.length_take]
    omega

@[simp] theorem slice_self (data : List UInt8) (a : Int) : slice data a a = [] := by
  rw [slice, List.drop_eq_nil_iff, List.length_take]
  omega

variable {A : Type} {linecb : MnByteStream → ByteRange → A → Int × A}

/-- The callback that also keeps the bytes of the lines it is passed. -/
def recording (linecb : MnByteStream → ByteRange → A → Int × A) :
    MnByteStream → ByteRange → List (List UInt8) × A → Int × (List (List UInt8) × A) :=
  fun s line acc =>
    let (res, a) := linecb s line acc.2
    (res, (acc.1 ++ [slice s.data line.start line.stop], a))

/-- What the callback has been passed, and its last answer. It has answered zero up
to there. -/
inductive Ran (linecb : MnByteStream → ByteRange → A → Int × A) : A → List (List UInt8) → Int → A → Prop where
  | done (a : A) : Ran linecb a [] 0 a
  | stop (s : MnByteStream) (line : ByteRange) (a : A) (stops : (linecb s line a).1 ≠ 0) :
      Ran linecb a [slice s.data line.start line.stop] (linecb s line a).1 (linecb s line a).2
  | more (s : MnByteStream) (line : ByteRange) {a b : A} {rest : List (List UInt8)} {res : Int}
      (silent : (linecb s line a).1 = 0) (later : Ran linecb (linecb s line a).2 rest res b) :
      Ran linecb a (slice s.data line.start line.stop :: rest) res b

theorem Ran.trans {a b c : A} {first second : List (List UInt8)} {res res' : Int} (one : Ran linecb a first res b)
    (zero : res = 0) (two : Ran linecb b second res' c) : Ran linecb a (first ++ second) res' c := by
  induction one with
  | done a => exact two
  | stop s line a stops => exact absurd zero stops
  | more s line silent later ih => exact .more s line silent (ih zero two)

theorem Ran.silent {a b : A} {passed : List (List UInt8)} {res : Int}
    (quiet : ∀ s line a, (linecb s line a).1 = 0) (ran : Ran linecb a passed res b) : res = 0 := by
  induction ran with
  | done a => rfl
  | stop s line a stops => exact quiet s line a
  | more s line silent later ih => exact ih

theorem scanLines_end {avail : Nat} {line : ByteRange} {s : MnByteStream} {seen : List (List UInt8)} {a : A}
    (looked : peek s.pos s = .ok 10) (silent : (linecb s { line with stop := s.pos } a).1 = 0) :
    scanLines (recording linecb) (avail + 1) line s (seen, a) =
      scanLines (recording linecb) avail { start := s.pos + 1, stop := s.pos } { s with pos := s.pos + 1 }
        (seen ++ [slice s.data line.start s.pos], (linecb s { line with stop := s.pos } a).2) := by
  rw [scanLines, looked]
  simp only [bind, Except.bind, if_true, recording, silent, ne_eq, not_true_eq_false, if_false]

theorem scanLines_stop {avail : Nat} {line : ByteRange} {s : MnByteStream} {seen : List (List UInt8)} {a : A}
    (looked : peek s.pos s = .ok 10) (stops : (linecb s { line with stop := s.pos } a).1 ≠ 0) :
    scanLines (recording linecb) (avail + 1) line s (seen, a) =
      .ok ((linecb s { line with stop := s.pos } a).1, { line with stop := s.pos }, s,
        (seen ++ [slice s.data line.start s.pos], (linecb s { line with stop := s.pos } a).2)) := by
  rw [scanLines, looked]
  simp only [bind, Except.bind, if_true, recording, ne_eq, stops, not_false_eq_true]
  rfl

theorem scanLines_other {cb : MnByteStream → ByteRange → A → Int × A} {avail : Nat} {line : ByteRange}
    {s : MnByteStream} {acc : A} {ch : UInt8} (looked : peek s.pos s = .ok ch) (other : ch ≠ 10) :
    scanLines cb (avail + 1) line s acc = scanLines cb avail line { s with pos := s.pos + 1 } acc := by
  rw [scanLines, looked]
  simp only [bind, Except.bind, if_neg other]

variable (linecb) in
/-- The lines that are complete are passed on. Without a stop what is left of the
data holds no line end; a stop leaves the position on the line end. -/
theorem scanLines_spec (seen : List (List UInt8)) (a : A) {avail : Nat} {line : ByteRange}
    {s : MnByteStream} (inside : s.eod ≤ s.data.length) (amount : s.pos + avail = s.eod) (low : 0 ≤ line.start)
    (order : line.start ≤ s.pos) (clean : 10 ∉ slice s.data line.start s.pos) :
    ∃ res line' pos passed a', scanLines (recording linecb) avail line s (seen, a) =
        .ok (res, line', { s with pos := pos }, (seen ++ passed, a')) ∧ Ran linecb a passed res a' ∧
      (res = 0 → pos = s.eod ∧ 0 ≤ line'.start ∧ line'.start ≤ s.eod ∧ 10 ∉ slice s.data line'.start s.eod ∧
        ∀ rest, lines (slice s.data line.start s.eod ++ rest) =
          passed ++ lines (slice s.data line'.start s.eod ++ rest)) ∧
      (res ≠ 0 → 0 ≤ pos ∧ pos < s.eod ∧ slice s.data pos s.eod = 10 :: slice s.data (pos + 1) s.eod ∧
        ∀ rest, lines (slice s.data line.start s.eod ++ rest) =
          passed ++ lines (slice s.data (pos + 1) s.eod ++ rest)) := by
  induction avail generalizing line s seen a with
  | zero =>
      have done : s.pos = s.eod := by omega
      refine ⟨0, line, s.pos, [], a, ?_, .done a, fun _ => ?_, fun wrong => absurd rfl wrong⟩
      · rw [scanLines, List.append_nil]
      · exact ⟨done, low, done ▸ order, done ▸ clean, fun _ => rfl⟩
  | succ avail ih =>
      have within : s.pos.toNat < s.data.length := by omega
      have here : s.data[s.pos.toNat]? = some (s.data[s.pos.toNat]) := List.getElem?_eq_getElem within
      generalize s.data[s.pos.toNat] = ch at here
      let next : MnByteStream := { s with pos := s.pos + 1 }
      have further : next.pos + avail = next.eod := by
        change s.pos + 1 + avail = s.eod
        omega
      have looked : peek s.pos s = .ok ch := by
        simp only [peek, here]
        exact if_pos (by omega)
      have single : slice s.data s.pos (s.pos + 1) = [ch] := slice_single (by omega) here
      have upto : slice s.data line.start (s.pos + 1) = slice s.data line.start s.pos ++ [ch] := by
        rw [← slice_append order (by omega), single]
      have ahead : slice s.data s.pos s.eod = ch :: slice s.data (s.pos + 1) s.eod := by
        rw [← slice_append (by omega : s.pos ≤ s.pos + 1) (by omega), single, List.singleton_append]
      have whole : slice s.data line.start s.eod =
          slice s.data line.start s.pos ++ ch :: slice s.data (s.pos + 1) s.eod := by
        rw [← slice_append order (by omega : s.pos ≤ s.eod), ahead]
      by_cases ends : ch = 10
      · subst ends
        have first : ∀ rest, lines (slice s.data line.start s.eod ++ rest) =
            slice s.data line.start s.pos :: lines (slice s.data (s.pos + 1) s.eod ++ rest) := by
          intro rest
          rw [whole, List.append_assoc, List.cons_append, lines_cons _ clean]
        by_cases silent : (linecb s { line with stop := s.pos } a).1 = 0
        · rw [scanLines_end looked silent]
          have fresh : 10 ∉ slice next.data (s.pos + 1) next.pos := by simp [next]
          rcases @ih (seen ++ [slice s.data line.start s.pos]) _ { start := s.pos + 1, stop := s.pos } next
            inside further (by simp only; omega) le_rfl fresh with
            ⟨res, line', pos, passed, a', run, ran, finished, stopped⟩
          refine ⟨res, line', pos, slice s.data line.start s.pos :: passed, a', ?_,
            .more s { line with stop := s.pos } silent ran, fun zero => ?_, fun nonzero => ?_⟩
          · rw [run, List.append_assoc, List.singleton_append]
          · rcases finished zero with ⟨upto, low', order', clean', same⟩
            exact ⟨upto, low', order', clean', fun rest => (first rest).trans (congrArg _ (same rest))⟩
          · rcases stopped nonzero with ⟨low', before, mark, same⟩
            exact ⟨low', before, mark, fun rest => (first rest).trans (congrArg _ (same rest))⟩
        · rw [scanLines_stop looked silent]
          refine ⟨_, _, s.pos, [slice s.data line.start s.pos], _, rfl, .stop s { line with stop := s.pos } a silent,
            fun zero => absurd zero silent, fun _ => ⟨?_, ?_, ahead, first⟩⟩
          · omega
          · omega
      · rw [scanLines_other looked ends]
        have still : 10 ∉ slice next.data line.start next.pos := by
          simp only [next, upto, List.mem_append, List.mem_singleton, not_or]
          exact ⟨clean, fun same => ends same.symm⟩
        exact @ih seen a line next inside further low (by simp only [next]; omega) still

/-- Giving memory back does not touch the bytes of the line that has begun. -/
theorem shiftBack_spec {E : Type} {sys : System E} {w : World E} {line : ByteRange}
    (buffered : Buffered w.stream) (order : w.stream.pos ≤ w.stream.eod) (low : 0 ≤ line.start)
    (before : line.start ≤ w.stream.pos) (step : 0 < w.stream.growsz) :
    ∃ n line' next, shiftBack sys line w = .ok (line', next) ∧ next.env = w.env ∧ 0 ≤ n ∧
      line'.start = line.start - n ∧ n ≤ line.start ∧ Shifted w.stream next.stream n ∧
      next.stream.sz = w.stream.sz := by
  rcases tmod_bounds low step.le with ⟨rest, least⟩
  let recyclepos := line.start - line.start.tmod w.stream.growsz
  have within : 0 ≤ recyclepos ∧ recyclepos ≤ w.stream.pos := by omega
  have heeds : 0 ≤ recyclepos ∨ recyclepos - recyclepos.tmod sys.pagesize ≤ w.stream.growsz * 2 :=
    .inl within.1
  rcases bytestreamRecycle_spec sys buffered order within.2 heeds with
    ⟨n, next, run, env, nonneg, far, shifted, size⟩
  have back : n ≤ line.start := by omega
  refine ⟨n, { line with start := line.start - n }, next, ?_, env, nonneg, rfl, back, shifted, size⟩
  rw [shiftBack, if_neg step.ne']
  simp only [recyclepos] at run within
  simp only [if_pos within, run, bind, Except.bind, if_pos back]
  rfl

theorem Shifted.slice {s next : MnByteStream} {n a : Int} (shifted : Shifted s next n) (low : 0 ≤ n)
    (order : n ≤ a) : slice next.data (a - n) next.eod = slice s.data a s.eod := by
  have sum : n.toNat + (a - n).toNat = a.toNat := by omega
  rw [slice_content, slice_content, shifted.content, List.drop_drop, sum]

/-- What the reader has still to deliver, the number of calls made so far and
whether memory has been refused. -/
structure Feed where
  rest : List UInt8
  tick : Nat
  refused : Bool

/-- How a reader splits its bytes into reads, and which memory is granted. -/
structure Plan where
  pagesize : Nat
  pagesize_pos : 0 < pagesize
  reads : Nat → Nat
  grants : Nat → Nat → Bool
  junk : Nat → UInt8

/-- No read is empty before the end. -/
def Plan.feed (plan : Plan) (n : Nat) (env : Feed) : Option (List UInt8) × Feed :=
  let count := min n (max 1 (plan.reads env.tick))
  (some (env.rest.take count), { env with rest := env.rest.drop count, tick := env.tick + 1 })

def Plan.realloc (plan : Plan) (size : Nat) (env : Feed) : Bool × Feed :=
  let granted := decide (size < 2 ^ 63) && plan.grants env.tick size
  (granted, { env with tick := env.tick + 1, refused := env.refused || !granted })

def Plan.system (plan : Plan) : System Feed where
  pagesize := plan.pagesize
  pagesize_pos := plan.pagesize_pos
  realloc := plan.realloc
  junk _ := plan.junk
  read := plan.feed
  recv := plan.feed
  write _ _ env := (none, env)
  send _ _ env := (none, env)

section

variable (plan : Plan) (source : Source) {w next : World Feed} {env after : Feed} {size : Nat} {grown : Bool}
  {amount : Int}

theorem feed_allocate (answer : allocate plan.system size env = (grown, after)) :
    after.rest = env.rest ∧ (grown = true → after.refused = env.refused) ∧
      (grown = false → after.refused = true) := by
  simp only [allocate, Plan.system, Plan.realloc, Prod.mk.injEq] at answer
  rcases answer with ⟨rfl, rfl⟩
  cases decide (size < 2 ^ 63)
  · simp
  · cases plan.grants env.tick size <;> simp

theorem feed_makeRoom (room : makeRoom plan.system amount w = (grown, next)) :
    next.env.rest = w.env.rest ∧ (grown = true → next.env.refused = w.env.refused) ∧
      (grown = false → next.env.refused = true) := by
  rw [makeRoom] at room
  by_cases missing : 0 < toSigned (w.stream.eod + amount - w.stream.sz)
  · simp only [if_pos missing] at room
    rw [bytestreamGrow] at room
    cases answer : allocate plan.system (toSize (w.stream.sz +
        toSize (max (toSigned (w.stream.eod + amount - w.stream.sz)) w.stream.growsz))) w.env with
    | mk there env =>
        have facts := feed_allocate plan answer
        cases there with
        | false =>
            simp only [answer, Bool.false_eq_true, if_false, Prod.mk.injEq] at room
            rcases room with ⟨rfl, rfl⟩
            exact facts
        | true =>
            simp only [answer, if_true, Prod.mk.injEq] at room
            rcases room with ⟨rfl, rfl⟩
            exact facts
  · simp only [if_neg missing, Prod.mk.injEq] at room
    rcases room with ⟨rfl, rfl⟩
    exact ⟨rfl, fun _ => rfl, Bool.noConfusion⟩

/-- Every request is granted, and two growth steps behind the data there is still
memory to address. -/
def Plan.Ample (plan : Plan) (eod growsz : Int) : Prop :=
  (∀ tick size, plan.grants tick size = true) ∧ eod + 2 * growsz < 2 ^ 63

theorem ample_makeRoom (buffered : Buffered w.stream) (size : 0 ≤ w.stream.sz) (step : 0 < w.stream.growsz)
    (ample : plan.Ample w.stream.eod w.stream.growsz) :
    (makeRoom plan.system w.stream.growsz w).1 = true := by
  rcases buffered with ⟨nonneg, inside, memory, -, upper, high, -⟩
  rcases ample with ⟨granted, room⟩
  have need_eq : toSigned (w.stream.eod + w.stream.growsz - w.stream.sz) =
      w.stream.eod + w.stream.growsz - w.stream.sz := toSigned_of_range (by omega) (by omega)
  rw [makeRoom]
  by_cases missing : 0 < w.stream.eod + w.stream.growsz - w.stream.sz
  · have least : max (w.stream.eod + w.stream.growsz - w.stream.sz) w.stream.growsz = w.stream.growsz := by
      omega
    have incr := toSize_of_range step.le (by omega : w.stream.growsz < 2 ^ 64)
    have whole : (toSize (w.stream.sz + w.stream.growsz) : Int) = w.stream.sz + w.stream.growsz :=
      toSize_of_range (by omega) (by omega)
    have short : toSize (w.stream.sz + w.stream.growsz) < 2 ^ 63 := by omega
    have there : (allocate plan.system (toSize (w.stream.sz + w.stream.growsz)) w.env).1 = true := by
      simp only [allocate, Plan.system, Plan.realloc, granted, short, decide_true, Bool.and_true]
    simp only [need_eq, if_pos missing, least, bytestreamGrow, incr, there, if_true]
  · simp only [need_eq, if_neg missing]

/-- A read of one growth step: memory is refused, or some of the bytes come in. -/
theorem feed_read (buffered : Buffered w.stream) (size : 0 ≤ w.stream.sz) (step : 0 < w.stream.growsz) :
    ∃ nread next, source.read plan.system w.stream.growsz w = .ok (nread, next) ∧
      ((nread = -1 ∧ next.env.refused = true ∧ ¬ plan.Ample w.stream.eod w.stream.growsz) ∨
        ∃ bytes : List UInt8, nread = bytes.length ∧ w.env.rest = bytes ++ next.env.rest ∧
          (bytes = [] → w.env.rest = []) ∧ next.env.refused = w.env.refused ∧
          Extended w.stream next.stream bytes) := by
  have high := buffered.step
  have same : source.read plan.system w.stream.growsz w =
      transferIn plan.system plan.feed w.stream.growsz w := by
    cases source <;> rfl
  rw [same]
  have fits : 0 < need w.stream.growsz w.stream ∨ _ := need_or_room buffered size step.le high
  cases room : makeRoom plan.system w.stream.growsz w with
  | mk grown middle =>
      rcases feed_makeRoom plan room with ⟨rest, kept, full⟩
      cases grown with
      | false =>
          refine ⟨-1, middle, by simp only [transferIn, room], .inl ⟨rfl, full rfl, fun ample => ?_⟩⟩
          have granted := ample_makeRoom plan buffered size step ample
          rw [room] at granted
          cases granted
      | true =>
          have bound := toSize_of_range step.le (by omega : w.stream.growsz < 2 ^ 64)
          let count := min (toSize w.stream.growsz) (max 1 (plan.reads middle.env.tick))
          have one : 1 ≤ count := by
            simp only [count]
            omega
          have read : plan.feed (toSize w.stream.growsz) middle.env =
            (some (middle.env.rest.take count), { middle.env with
              rest := middle.env.rest.drop count
              tick := middle.env.tick + 1 }) := rfl
          rcases transferIn_read buffered step.le high fits room read with ⟨next, run, env, extended⟩
          have all : (middle.env.rest.take count).take (toSize w.stream.growsz) =
              middle.env.rest.take count := by
            rw [List.take_take, min_eq_right (Nat.min_le_left _ _)]
          rw [all] at run extended
          refine ⟨_, next, run, .inr ⟨_, rfl, ?_, fun none => ?_, ?_, extended⟩⟩
          · rw [env, ← rest, List.take_append_drop]
          · rw [← rest]
            rcases List.take_eq_nil_iff.mp none with zero | empty
            · omega
            · exact empty
          · rw [env]
            exact kept rfl

/-- At the end of the data the loop ends, or some of the bytes come in. -/
theorem refill_spec (buffered : Buffered w.stream) (empty : w.stream.pos = w.stream.eod)
    (size : 0 ≤ w.stream.sz) (step : 0 < w.stream.growsz) :
    ∃ ready next, refill (source.read plan.system) w = .ok (ready, next) ∧
      (ready = false → next.env.refused = false ∨ plan.Ample w.stream.eod w.stream.growsz →
        w.env.rest = []) ∧
      (ready = true → ∃ bytes, bytes ≠ [] ∧ w.env.rest = bytes ++ next.env.rest ∧
        Extended w.stream next.stream bytes) := by
  rcases feed_read plan source buffered size step with ⟨nread, next, run, effect⟩
  have amount : w.stream.pos + w.stream.growsz - w.stream.eod = w.stream.growsz := by omega
  refine ⟨decide (0 < nread), next, ?_, fun none granted => ?_, fun some => ?_⟩
  · rw [refill, if_pos empty.ge, bytestreamConsumeData]
    simp only [amount, if_neg (not_le.mpr step), run, bind, Except.bind, pure, Except.pure]
    rcases lt_trichotomy nread 0 with negative | rfl | positive
    · rw [if_neg negative.ne, if_pos negative]
      simp only [reduceCtorEq, decide_false, negative.not_gt]
    · rfl
    · rw [if_neg positive.ne', if_neg positive.not_gt]
      simp only [decide_true, positive]
  · rw [decide_eq_false_iff_not] at none
    rcases effect with ⟨-, refused, scant⟩ | ⟨bytes, rfl, -, rest, -, -⟩
    · rcases granted with granted | ample
      · exact absurd (granted.symm.trans refused) (by decide)
      · exact absurd ample scant
    · exact rest (List.eq_nil_of_length_eq_zero (by omega))
  · rw [decide_eq_true_eq] at some
    rcases effect with ⟨rfl, -⟩ | ⟨bytes, rfl, rest, -, -, extended⟩
    · exact absurd some (by decide)
    · refine ⟨bytes, ?_, rest, extended⟩
      rintro rfl
      exact absurd some (by decide)

/-- Within the outer loop, before the data are looked at: a line has begun, and what
has been looked at of it holds no line end. -/
structure Reading (growsz : Int) (bound : Nat) (line : ByteRange) (w : World Feed) : Prop where
  buffered : Buffered w.stream
  order : w.stream.pos ≤ w.stream.eod
  size : 0 ≤ w.stream.sz
  same : w.stream.growsz = growsz
  step : 0 < growsz
  low : 0 ≤ line.start
  before : line.start ≤ w.stream.pos
  clean : 10 ∉ slice w.stream.data line.start w.stream.pos
  total : w.stream.eod + w.env.rest.length ≤ bound

/-- The bytes from the start of the line on. -/
def left (line : ByteRange) (w : World Feed) : List UInt8 :=
  slice w.stream.data line.start w.stream.eod ++ w.env.rest

/-- How many bytes have still to be looked at. -/
def pending (w : World Feed) : Nat := w.env.rest.length + (w.stream.eod - w.stream.pos).toNat

theorem slice_old {s next : MnByteStream} {bytes : List UInt8} {a : Int} (buffered : Buffered s)
    (extended : Extended s next bytes) : slice next.data a s.eod = slice s.data a s.eod := by
  have nonneg := buffered.nonneg
  have inside := buffered.inside
  have more := extended.eod
  have taken : next.data.take s.eod.toNat = content s := by
    have both := congrArg (List.take s.eod.toNat) extended.content
    rw [content, List.take_take, min_eq_left (by omega), List.take_append_of_le_length] at both
    · rw [both, content, List.take_take, min_self]
    · rw [content, List.length_take]
      omega
  rw [slice, taken, slice_content]

theorem slice_new {s next : MnByteStream} {bytes : List UInt8} {a : Int} (buffered : Buffered s)
    (extended : Extended s next bytes) (order : a ≤ s.eod) :
    slice next.data a next.eod = slice s.data a s.eod ++ bytes := by
  have inside := buffered.inside
  rw [slice_content, slice_content, extended.content, List.drop_append_of_le_length]
  rw [content, List.length_take]
  omega

variable {growsz : Int} {bound : Nat} {line : ByteRange}

/-- The loop ends at the end of the data only, and new bytes do not change what is
left. -/
theorem Reading.refill (reading : Reading growsz bound line w) :
    ∃ ready next, refill (source.read plan.system) w = .ok (ready, next) ∧
      (ready = false → w.stream.pos = w.stream.eod ∧
        (next.env.refused = false ∨ plan.Ample bound growsz → w.env.rest = [])) ∧
      (ready = true → Reading growsz bound line next ∧ left line next = left line w ∧
        next.stream.pos < next.stream.eod ∧ pending next = pending w) := by
  have step : 0 < w.stream.growsz := reading.same ▸ reading.step
  rcases lt_or_eq_of_le reading.order with inside | empty
  · refine ⟨true, w, ?_, fun wrong => Bool.noConfusion wrong, fun _ => ⟨reading, rfl, inside, rfl⟩⟩
    rw [Bytestream.refill, if_neg (not_le.mpr inside)]
  · rcases refill_spec plan source reading.buffered empty reading.size step with ⟨ready, next, filled, ended, more⟩
    have total := reading.total
    refine ⟨ready, next, filled, fun none => ⟨empty, fun granted => ?_⟩, fun some => ?_⟩
    · apply ended none
      apply granted.imp_right
      intro ample
      have room := ample.2
      refine ⟨ample.1, ?_⟩
      rw [reading.same]
      omega
    · rcases more some with ⟨got, nonempty, rest, extended⟩
      have positive := List.length_pos_of_ne_nil nonempty
      have pos := extended.pos
      have eod := extended.eod
      have upto : slice next.stream.data line.start next.stream.pos =
          slice w.stream.data line.start w.stream.pos := by
        rw [pos, empty, slice_old reading.buffered extended]
      have before := reading.before
      rw [rest, List.length_append] at total
      refine ⟨⟨extended.buffered, ?_, extended.positive reading.size, extended.growsz.trans reading.same,
        reading.step, reading.low, ?_, ?_, ?_⟩, ?_, ?_, ?_⟩
      · omega
      · rwa [pos]
      · rw [upto]
        exact reading.clean
      · omega
      · rw [left, slice_new reading.buffered extended (by omega), List.append_assoc, ← rest, left]
      · omega
      · rw [pending, pending, rest, List.length_append]
        omega

/-- What a stop leaves behind: a stream whose next line begins with the line end of
the line that has just been passed on. -/
def Stopped (growsz : Int) (bound : Nat) (passed all : List (List UInt8)) (final : World Feed) : Prop :=
  Reading growsz bound { start := final.stream.pos, stop := 0 } final ∧
    ∃ rest, left { start := final.stream.pos, stop := 0 } final = 10 :: rest ∧ all = passed ++ lines rest

variable (linecb) in
/-- One turn of the outer loop. -/
theorem Reading.turn (seen : List (List UInt8)) (a : A) (reading : Reading growsz bound line w) :
    ∃ res line' s passed a', scanLines (recording linecb) (w.stream.eod - w.stream.pos).toNat line w.stream
        (seen, a) = .ok (res, line', s, (seen ++ passed, a')) ∧ Ran linecb a passed res a' ∧
      (res = 0 → ∃ line'' after, shiftBack plan.system line' ⟨s, w.env⟩ = .ok (line'', after) ∧
        Reading growsz bound line'' after ∧ pending after = w.env.rest.length ∧
        lines (left line w) = passed ++ lines (left line'' after)) ∧
      (res ≠ 0 → Stopped growsz bound passed (lines (left line w)) ⟨s, w.env⟩) := by
  rcases reading with ⟨buffered, order, size, same, step, low, before, clean, total⟩
  have amount : w.stream.pos + (w.stream.eod - w.stream.pos).toNat = w.stream.eod := by omega
  rcases scanLines_spec linecb seen a buffered.inside amount low before clean with
    ⟨res, line', pos, passed, a', scanned, ran, finished, stopped⟩
  let s : MnByteStream := { w.stream with pos := pos }
  have buffered' : Buffered s := { buffered with }
  refine ⟨res, line', s, passed, a', scanned, ran, fun zero => ?_, fun nonzero => ?_⟩
  · rcases finished zero with ⟨rfl, low', before', clean', account⟩
    have positive : 0 < s.growsz := same ▸ step
    have back : ∃ n line'' after, shiftBack plan.system line' ⟨s, w.env⟩ = .ok (line'', after) ∧ _ :=
      shiftBack_spec (w := ⟨s, w.env⟩) buffered' le_rfl low' before' positive
    rcases back with ⟨n, line'', after, shifted, env, nonneg, start, least, shift, -⟩
    replace env : after.env = w.env := env
    have kept : slice after.stream.data line''.start after.stream.eod =
        slice w.stream.data line'.start w.stream.eod := by
      rw [start]
      exact shift.slice nonneg least
    have last : after.stream.pos = w.stream.eod - n := shift.pos
    have shorter : after.stream.eod = w.stream.eod - n := shift.eod
    have whole : lines (left line w) = passed ++ lines (left line'' after) := by
      rw [left, left, kept, env]
      exact account w.env.rest
    refine ⟨line'', after, shifted, ⟨shift.buffered, ?_, shift.positive size, shift.growsz.trans same, step,
      ?_, ?_, ?_, ?_⟩, ?_, whole⟩
    · rw [last, shorter]
    · omega
    · omega
    · rwa [last, ← shorter, kept]
    · rw [env]
      omega
    · rw [pending, env]
      omega
  · rcases stopped nonzero with ⟨low', before', mark, account⟩
    refine ⟨⟨buffered', before'.le, size, same, step, low', le_rfl, ?_, total⟩,
      slice w.stream.data (pos + 1) w.stream.eod ++ w.env.rest, ?_, account w.env.rest⟩
    · simp
    · exact congrArg (fun bytes => bytes ++ w.env.rest) mark

variable (linecb) in
/-- Until the callback stops, the lines that are left are passed on, one after the
other. -/
theorem lineLoop_spec (seen : List (List UInt8)) (a : A) {fuel : Nat} (reading : Reading growsz bound line w)
    (enough : pending w < fuel) :
    ∃ res final passed a', lineLoop plan.system (source.read plan.system) (recording linecb) fuel line w (seen, a) =
        .ok (res, final, (seen ++ passed, a')) ∧ Ran linecb a passed res a' ∧
      (res = 0 → passed <+: lines (left line w) ∧
        (final.env.refused = false ∨ plan.Ample bound growsz → passed = lines (left line w))) ∧
      (res ≠ 0 → Stopped growsz bound passed (lines (left line w)) final) := by
  induction fuel generalizing w seen line a with
  | zero => exact absurd enough (Nat.not_lt_zero _)
  | succ fuel ih =>
      rcases reading.refill plan source with ⟨ready, next, filled, ended, more⟩
      cases ready with
      | false =>
          refine ⟨0, next, [], a, ?_, .done a, fun _ => ⟨List.nil_prefix, fun granted => ?_⟩,
            fun wrong => absurd rfl wrong⟩
          · simp only [lineLoop, filled, bind, Except.bind, Bool.false_eq_true, if_false, List.append_nil]
            rfl
          · rcases ended rfl with ⟨empty, rest⟩
            rw [left, rest granted, List.append_nil, lines_clean]
            rw [← empty]
            exact reading.clean
      | true =>
          rcases more rfl with ⟨reading', same, ahead, count⟩
          rcases reading'.turn linecb plan seen a with
            ⟨res, line', s, passed, a', scanned, ran, finished, stopped⟩
          rw [lineLoop, filled, ← same]
          simp only [bind, Except.bind, if_true]
          rw [scanned]
          by_cases zero : res = 0
          · rcases finished zero with ⟨line'', after, shifted, further, fewer, account⟩
            have less : pending after < fuel := by
              have consumed : pending next = next.env.rest.length + (next.stream.eod - next.stream.pos).toNat := rfl
              have some : 0 < (next.stream.eod - next.stream.pos).toNat := by omega
              clear scanned finished stopped shifted
              omega
            rcases ih (seen ++ passed) a' further less with
              ⟨last, final, passed', b, run, ran', finished', stopped'⟩
            refine ⟨last, final, passed ++ passed', b, ?_, ran.trans zero ran', fun zero' => ?_, fun nonzero => ?_⟩
            · simp only [zero, ne_eq, not_true_eq_false, if_false]
              rw [shifted, ← List.append_assoc]
              exact run
            · rcases finished' zero' with ⟨start, all⟩
              rw [account, List.prefix_append_right_inj]
              exact ⟨start, fun granted => congrArg _ (all granted)⟩
            · rcases stopped' nonzero with ⟨resting, rest, mark, account'⟩
              refine ⟨resting, rest, mark, ?_⟩
              rw [account, account', List.append_assoc]
          · refine ⟨res, ⟨s, next.env⟩, passed, a', ?_, ran, fun wrong => absurd wrong zero, stopped⟩
            simp only [ne_eq, zero, not_false_eq_true, if_true]
            rfl

theorem init_reading {bytes : List UInt8} (step : 0 < growsz) (high : growsz < 2 ^ 63)
    (init : bytestreamInit plan.system growsz ⟨bytes, 0, false⟩ = (true, w)) :
    Reading growsz bytes.length { start := w.stream.pos, stop := 0 } w ∧
      left { start := w.stream.pos, stop := 0 } w = bytes := by
  rcases bytestreamInit_fresh init with ⟨fresh, env⟩
  rw [if_pos step] at env
  have rest : w.env.rest = bytes := by
    rw [env]
    exact (feed_allocate plan rfl).1
  have none_left : slice w.stream.data w.stream.pos w.stream.pos = [] := slice_self _ _
  refine ⟨⟨fresh.buffered (by omega), (fresh.pos.trans fresh.eod.symm).le, fresh.size.symm ▸ step.le, fresh.step, step,
    fresh.pos.ge, le_rfl, ?_, ?_⟩, ?_⟩
  · rw [none_left]
    exact List.not_mem_nil
  · rw [fresh.eod, rest, zero_add]
  · rw [left, fresh.eod, ← fresh.pos, none_left, rest]
    rfl

theorem Reading.pending_le (reading : Reading growsz bound line w) : pending w ≤ bound := by
  have order := reading.order
  have total := reading.total
  have low := reading.low
  have before := reading.before
  rw [pending]
  omega

/-- However the input is split into reads and wherever the buffer is recycled, the
callback is passed the lines of the input, unless memory is refused on the way. -/
theorem consumeLines_lines {growsz : Int} {bytes : List UInt8} {fuel : Nat} (step : 0 < growsz)
    (high : growsz < 2 ^ 63) (quiet : ∀ s line (a : A), (linecb s line a).1 = 0) (a : A)
    (init : bytestreamInit plan.system growsz ⟨bytes, 0, false⟩ = (true, w)) (enough : bytes.length < fuel) :
    ∃ final seen a', bytestreamConsumeLines plan.system (source.read plan.system) (recording linecb) fuel w
        ([], a) = .ok (0, final, (seen, a')) ∧ seen <+: lines bytes ∧
      (final.env.refused = false ∨ plan.Ample bytes.length growsz → seen = lines bytes) := by
  rcases init_reading plan step high init with ⟨reading, all⟩
  have fewer : pending w < fuel := reading.pending_le.trans_lt enough
  rcases lineLoop_spec linecb plan source [] a reading fewer with
    ⟨res, final, passed, a', run, ran, finished, -⟩
  have zero := ran.silent quiet
  rw [all] at finished
  rw [zero] at run
  exact ⟨final, passed, a', run, finished zero⟩

end

/-- One byte at a time. -/
def trickle : Plan where
  pagesize := 4096
  pagesize_pos := page_pos
  reads _ := 1
  grants _ _ := true
  junk _ := 0

def trickleStart : World Feed := ⟨emptyStream, ⟨[97, 10, 98, 99, 10, 100], 1, false⟩⟩

theorem trickle_lines : ∃ final seen a', bytestreamConsumeLines trickle.system
      (Source.readMore.read trickle.system) (recording fun _ _ (a : Unit) => (0, a)) 7 trickleStart
      ([], ()) = .ok (0, final, (seen, a')) ∧
    seen <+: lines [97, 10, 98, 99, 10, 100] ∧
    (final.env.refused = false ∨ trickle.Ample 6 8 → seen = lines [97, 10, 98, 99, 10, 100]) :=
  consumeLines_lines trickle .readMore (by decide : (0 : Int) < 8) (by decide) (fun _ _ _ => rfl) () rfl (by decide)

end MnCommon.Bytestream
