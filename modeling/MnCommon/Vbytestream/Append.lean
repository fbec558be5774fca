import MnCommon.Vbytestream.Nprintf
import MnCommon.Memory.Run

/-! Runs of appends to a vectored stream, with rewinds between them. -/

namespace MnCommon.Vbytestream

open Memory (Fault Along along_iff execute execute_step)
open Bytestream (Text toSize)

inductive EditOp where
  | nprintf (sz : Int64) (text : Text)
  | adopt (data : Mnbytes)
  | rewind

variable {E : Type} (sys : System E)

/-- One call. The formatter reports no error. -/
def edit : EditOp → World E → Except Fault (Answer E)
  | .nprintf sz text, w => vbytestreamNprintf sys sz.toInt (some text) w
  | .adopt data, w => vbytestreamAdopt data w
  | .rewind, w => .ok (0, vbytestreamRewind w)

/-- The bytes that a call has appended, from its answer. -/
def EditOp.added (answer : Int) : EditOp → List UInt8
  | .nprintf _ text => if 0 ≤ answer then text.chars else []
  | .adopt data => data.data.take data.sz
  | .rewind => []

/-- The content after a call, from the one before it. -/
def EditOp.after (answer : Int) (before : List UInt8) : EditOp → List UInt8
  | .rewind => []
  | op => before ++ op.added answer

/-- No assertion fires, and the content is what it should be. -/
def Upholds (op : EditOp) (w : World E) : Prop :=
  ∃ answer next, edit sys op w = .ok (answer, next) ∧ content next.stream = op.after answer (content w.stream)

/-- The room behind the data in the edge, as an `int`. -/
def avail (s : Mnvbytestream) : Int :=
  match arrayGet s.iov s.eod.idx with
  | some edge => toInt (edge.iovLen - s.eod.offt)
  | none => 0

/-- The bytes of the edge behind the data. -/
def spare (s : Mnvbytestream) : List UInt8 :=
  match arrayGet s.iov s.eod.idx with
  | some edge => edge.segment.drop s.eod.offt.toNat
  | none => []

/-- The calls that do what they should. -/
def Fine : EditOp → World E → Prop
  | .nprintf sz text, w =>
      if Allocated w.stream.eod.idx w.stream then
        0 < w.stream.eod.offt ∧ (text.chars.length < avail w.stream ∨ Creatable sz.toInt)
      else
        Creatable sz.toInt ∧ (text.chars.length < toInt sz.toInt ∨ toInt sz.toInt = sz.toInt)
  | .adopt data, w =>
      if 0 < w.stream.eod.offt then
        spare w.stream = data.data.take data.sz
      else
        ¬ Allocated w.stream.eod.idx w.stream
  | .rewind, _ => True

/-- The content after a run, from the answers of its calls. -/
def afterAll (before : List UInt8) : List EditOp → List Int → List UInt8
  | op :: ops, answer :: answers => afterAll (op.after answer before) ops answers
  | _, _ => before

variable {sys} {w : World E} {s : Mnvbytestream} {full tail rest : List Iovec} {data : Mnbytes}

theorem not_allocated_unused (split : s.iov = full ++ tail) (idx : s.eod.idx = full.length)
    (unused : ∀ slot ∈ tail, slot = iovecInit) : ¬ Allocated s.eod.idx s := by
  rw [Allocated, split, idx, not_not]
  cases tail with
  | nil => rw [List.append_nil, arrayGet_past, Option.bind_none]
  | cons slot rest =>
      have same : slot = iovecInit := unused slot List.mem_cons_self
      rw [arrayGet_end, same]
      rfl

theorem nprintf_blocked {sz : Int} {text : Option Text} (blocked : Blocked w.stream) :
    vbytestreamNprintf sys sz text w = .error .assertion := by
  rcases blocked with ⟨empty, -, edge, -⟩
  rw [Allocated] at edge
  cases found : arrayGet w.stream.iov w.stream.eod.idx with
  | none => exact absurd (congrArg (fun slot => Option.bind slot Iovec.iovBase) found) edge
  | some slot =>
      rw [found] at edge
      replace edge : slot.iovBase ≠ none := edge
      have none : ¬ 0 < w.stream.eod.offt := by omega
      rw [vbytestreamNprintf, openEdge, iovecGetSafe, found]
      simp only [bind, Except.bind, if_neg edge, if_neg none]

theorem adopt_blocked (blocked : Blocked w.stream) : vbytestreamAdopt data w = .error .assertion := by
  rcases blocked with ⟨empty, ⟨full, tail, laid⟩, edge, -⟩
  have nonneg := laid.before
  rw [Allocated] at edge
  cases found : arrayGet w.stream.iov w.stream.eod.idx with
  | none => exact absurd (congrArg (fun slot => Option.bind slot Iovec.iovBase) found) edge
  | some slot =>
      rw [found] at edge
      replace edge : slot.iovBase ≠ none := edge
      have part : w.stream.part = 0 := if_neg (by omega)
      have inside : w.stream.iov[w.stream.eod.idx.toNat]? = some slot := by
        rw [arrayGet, if_pos nonneg] at found
        exact found
      have below := (List.getElem?_eq_some_iff.mp inside).1
      have size : (w.stream.eod.idx + 1).toNat = w.stream.eod.idx.toNat + 1 := by omega
      have still : ∀ more, arrayGet (w.stream.iov.take (w.stream.eod.idx.toNat + 1) ++ more) w.stream.eod.idx =
          some slot := by
        intro more
        rw [arrayGet, if_pos nonneg, List.getElem?_append_left, List.getElem?_take_of_lt (Nat.lt_succ_self _), inside]
        rw [List.length_take]
        omega
      rw [vbytestreamAdopt, part, add_zero, arrayEnsureLen, if_pos (by omega), size]
      simp only [bind, Except.bind, still, edge, false_and, if_false]

theorem ensure_one (full : List Iovec) (unused : ∀ slot ∈ tail, slot = iovecInit) {len : Int}
    (one : len = full.length + 1) : arrayEnsureLen (full ++ tail) len = .ok (full ++ [iovecInit]) := by
  have size : len.toNat = full.length + 1 := by omega
  rw [arrayEnsureLen, if_pos (by omega), size]
  cases tail with
  | nil =>
      have missing : full.length + 1 - (full ++ []).length = 1 := by
        rw [List.append_nil]
        omega
      rw [missing, List.append_nil, List.take_of_length_le (by omega)]
      rfl
  | cons slot rest =>
      have same : slot = iovecInit := unused slot List.mem_cons_self
      have missing : full.length + 1 - (full ++ slot :: rest).length = 0 := by
        rw [List.length_append, List.length_cons]
        omega
      have front : (full ++ slot :: rest).take (full.length + 1) = full ++ [slot] := by
        rw [List.take_append, List.take_of_length_le (by omega), Nat.add_sub_cancel_left]
        rfl
      rw [missing, front, same, List.replicate_zero, List.append_nil]

variable (data) in
/-- A buffer behind data that end with a segment. -/
theorem adopt_unused (clean : Clean w.stream full tail) (empty : w.stream.eod.offt = 0)
    (unused : ∀ slot ∈ tail, slot = iovecInit) :
    ∃ next, vbytestreamAdopt data w = .ok (toInt data.sz, next) ∧
      Grown w.stream next.stream (data.data.take data.sz) := by
  have part : w.stream.part = 0 := if_neg (by omega)
  have here := clean.idx
  have one : arrayEnsureLen (full ++ tail) (w.stream.eod.idx + w.stream.part + 1) = .ok (full ++ [iovecInit]) :=
    ensure_one full unused (by omega)
  rw [← clean.split] at one
  let made : Mnvbytestream := { w.stream with iov := full ++ [iovecInit] }
  let adopted : Iovec := { iovBase := some data, iovLen := data.sz }
  let next : Mnvbytestream := { made.put (w.stream.eod.idx + w.stream.part) adopted with
    eod := { idx := w.stream.eod.idx + 1, offt := 0, total := w.stream.eod.total + data.sz } }
  have last : w.stream.eod.idx + w.stream.part = full.length := by omega
  have split : next.iov = (full ++ [adopted]) ++ [] := by
    rw [List.append_nil]
    exact put_end (s := made) rfl last adopted
  have idx : next.eod.idx = ((full ++ [adopted]).length : Int) := by
    rw [List.length_append, List.length_singleton]
    change w.stream.eod.idx + 1 = _
    omega
  have closes : ∀ slot ∈ full ++ [adopted], slot.Closed := by
    intro slot inside
    rcases List.mem_append.mp inside with old | new
    · exact clean.closed slot old
    · exact List.mem_singleton.mp new ▸ ⟨data, rfl, data.whole⟩
  have order : w.stream.eod.idx ≤ ((full ++ [adopted]).length : Int) := by
    rw [← idx]
    exact (Int.lt_succ _).le
  have found : arrayGet (full ++ [iovecInit]) (w.stream.eod.idx + w.stream.part) = some iovecInit := by
    rw [last, arrayGet_end]
  refine ⟨⟨next, w.env⟩, ?_, grown_of_layout rfl split idx order (good_of_unused split idx closes rfl (by simp))
    fun k below => ?_⟩
  · rw [vbytestreamAdopt]
    simp only [bind, Except.bind, one, found]
    rfl
  · have front : k ≤ full.length := by omega
    rw [clean.before empty, List.drop_append_of_le_length front, List.flatMap_append, List.flatMap_singleton]
    exact List.append_nil _

variable (data) in
/-- A buffer behind data that end within a segment: the mark comes to stand before it,
and the rest of the segment counts as data. -/
theorem adopt_filling {b : Mnbytes} (clean : Clean w.stream full ({ iovBase := some b, iovLen := b.sz } :: rest))
    (some_data : 0 < w.stream.eod.offt) (unused : ∀ slot ∈ rest, slot = iovecInit) :
    ∃ next, vbytestreamAdopt data w = .ok (toInt data.sz, next) ∧ Blocked next.stream ∧
      next.stream.pos = w.stream.pos ∧ next.stream.eod.idx = w.stream.eod.idx + 1 ∧
      ∀ k : Nat, (k : Int) ≤ w.stream.eod.idx →
        contentFrom k next.stream = (full.drop k).flatMap Iovec.segment ++ b.data.take b.sz := by
  let edge : Iovec := { iovBase := some b, iovLen := b.sz }
  have part : w.stream.part = 1 := if_pos some_data
  have here := clean.idx
  have width : (full ++ [edge]).length = full.length + 1 := by
    rw [List.length_append, List.length_singleton]
  have one : arrayEnsureLen ((full ++ [edge]) ++ rest) (w.stream.eod.idx + w.stream.part + 1) =
      .ok ((full ++ [edge]) ++ [iovecInit]) := ensure_one (full ++ [edge]) unused (by omega)
  have whole : w.stream.iov = (full ++ [edge]) ++ rest := by
    rw [clean.split, List.append_assoc]
    rfl
  rw [← whole] at one
  let made : Mnvbytestream := { w.stream with iov := (full ++ [edge]) ++ [iovecInit] }
  let adopted : Iovec := { iovBase := some data, iovLen := data.sz }
  let next : Mnvbytestream := { made.put (w.stream.eod.idx + w.stream.part) adopted with
    eod := { idx := w.stream.eod.idx + 1, offt := 0, total := w.stream.eod.total + data.sz } }
  have last : w.stream.eod.idx + w.stream.part = (full ++ [edge]).length := by omega
  have split : next.iov = (full ++ [edge]) ++ adopted :: [] := put_end (s := made) rfl last adopted
  have idx : next.eod.idx = ((full ++ [edge]).length : Int) := by
    change w.stream.eod.idx + 1 = _
    omega
  have closes : ∀ slot ∈ full ++ [edge], slot.Closed := by
    intro slot inside
    rcases List.mem_append.mp inside with old | new
    · exact clean.closed slot old
    · exact List.mem_singleton.mp new ▸ ⟨b, rfl, b.whole⟩
  have found : arrayGet ((full ++ [edge]) ++ [iovecInit]) (w.stream.eod.idx + w.stream.part) = some iovecInit := by
    rw [last, arrayGet_end]
  refine ⟨⟨next, w.env⟩, ?_, ⟨rfl, ⟨_, _, laid_of_empty split idx closes rfl⟩,
    allocated_end split idx (Option.some_ne_none data), allocated_first split closes (Option.some_ne_none data)⟩,
    rfl, rfl, fun k below => ?_⟩
  · rw [vbytestreamAdopt]
    simp only [bind, Except.bind, one, found]
    rfl
  · have front : k ≤ full.length := by omega
    rw [contentFrom_eq split idx, List.drop_append_of_le_length front, List.flatMap_append, List.flatMap_singleton]
    exact List.append_nil _

theorem rewind_content (w : World E) : content (vbytestreamRewind w).stream = [] := by
  rw [content, contentFrom, edgeBytes_empty rfl]
  rfl

theorem arrayGet_rewound (iov : List Iovec) (idx : Int) :
    (arrayGet (iov.map rewound) idx).bind Iovec.iovBase = (arrayGet iov idx).bind Iovec.iovBase := by
  rw [arrayGet, arrayGet]
  split
  · rw [List.getElem?_map]
    cases iov[idx.toNat]? with
    | none => rfl
    | some slot =>
        change (rewound slot).iovBase = slot.iovBase
        rw [rewound]
        cases slot.iovBase with
        | none => rfl
        | some b => rfl
  · rfl

theorem rewind_good (good : Good w.stream) : Good (vbytestreamRewind w).stream := by
  by_cases used : Allocated 0 w.stream
  · have still : Allocated 0 (vbytestreamRewind w).stream := by
      rw [Allocated, vbytestreamRewind, arrayGet_rewound]
      exact used
    have laid : Laid (vbytestreamRewind w).stream [] _ := laid_of_empty rfl rfl (by simp) rfl
    exact .inr ⟨rfl, ⟨_, _, laid⟩, still, still⟩
  · rcases good with ⟨full, tail, clean⟩ | blocked
    · have unused : ∀ slot ∈ w.stream.iov, slot = iovecInit := by
        rw [clean.split]
        cases full with
        | nil =>
            cases clean.tail with
            | fresh empty unused => exact unused
            | filling b some more small others =>
                exact absurd (allocated_first clean.split clean.closed (Option.some_ne_none b)) used
        | cons slot others =>
            have closed := clean.closed slot List.mem_cons_self
            refine absurd ?_ used
            rw [Allocated, clean.split]
            exact closed.used
      have split : (vbytestreamRewind w).stream.iov = [] ++ w.stream.iov.map rewound := rfl
      refine good_of_unused split rfl (by simp) rfl fun slot inside => ?_
      rcases List.mem_map.mp inside with ⟨old, there, rfl⟩
      rw [unused old there]
      rfl
    · exact absurd blocked.first used

theorem Good.clean (good : Good s) (open_edge : ¬ (Allocated s.eod.idx s ∧ s.eod.offt = 0)) :
    ∃ full tail, Clean s full tail := by
  rcases good with clean | blocked
  · exact clean
  · exact absurd ⟨blocked.edge, blocked.empty⟩ open_edge

/-- The edge of a stream in good order that has data in it. -/
theorem Clean.filled (clean : Clean s full tail) (used : Allocated s.eod.idx s) :
    ∃ b rest, tail = { iovBase := some b, iovLen := b.sz } :: rest ∧ 0 < s.eod.offt ∧ s.eod.offt < b.sz ∧
      b.sz < 2 ^ 63 ∧ ∀ slot ∈ rest, slot = iovecInit := by
  cases tail_shape : clean.tail with
  | fresh empty unused => exact absurd used (not_allocated_unused clean.split clean.idx unused)
  | filling b some more small unused => exact ⟨b, _, rfl, some, more, small, unused⟩

theorem Clean.unfilled (clean : Clean s full tail) (unused : ¬ Allocated s.eod.idx s) :
    s.eod.offt = 0 ∧ ∀ slot ∈ tail, slot = iovecInit := by
  cases clean.tail with
  | fresh empty all => exact ⟨empty, all⟩
  | filling b some more small others =>
      exact absurd (allocated_end clean.split clean.idx (Option.some_ne_none b)) unused

theorem Clean.edge {slot : Iovec} (clean : Clean s full (slot :: rest)) : arrayGet s.iov s.eod.idx = some slot := by
  rw [clean.split, clean.idx, arrayGet_end]

theorem nprintf_uncreatable {sz : Int} {text : Text} (clean : Clean w.stream full tail) (empty : w.stream.eod.offt = 0)
    (unused : ∀ slot ∈ tail, slot = iovecInit) (low : -2 ^ 63 ≤ sz) (high : sz < 2 ^ 63)
    (uncreatable : ¬ Creatable sz) : ∃ fault, vbytestreamNprintf sys sz (some text) w = .error fault := by
  rcases openEdge_unused sys sz clean empty unused with ⟨rest, -, opened⟩
  rcases iovecAlloc_fault sys low high uncreatable iovecInit w.env with ⟨fault, failed⟩
  refine ⟨fault, ?_⟩
  rw [vbytestreamNprintf, opened, failed]
  rfl

variable (sys) in
/-- A piece that is appended, or refused for its length. -/
theorem nprintf_fine {sz : Int64} {text : Text} (good : Good w.stream) (fine : Fine (.nprintf sz text) w) :
    ∃ answer next, vbytestreamNprintf sys sz.toInt (some text) w = .ok (answer, next) ∧
      Grown w.stream next.stream (if 0 ≤ answer then text.chars else []) ∧
      (text.chars.length < sz.toInt → answer = text.chars.length ∧ text.chars.length ≤ next.stream.eod.offt) := by
  have nonneg : (0 : Int) ≤ text.chars.length := Int.natCast_nonneg _
  have refused : ¬ (0 : Int) ≤ NPRINTF_NEEDMORE := by decide
  rw [Fine] at fine
  by_cases used : Allocated w.stream.eod.idx w.stream
  · rw [if_pos used] at fine
    rcases fine with ⟨some_data, room⟩
    rcases good.clean (fun wrong => some_data.ne' wrong.2) with ⟨full, tail, clean⟩
    rcases clean.filled used with ⟨b, rest, rfl, -, more, small, unused⟩
    rcases nprintf_filling sys sz.toInt text clean some_data more small unused with
      ⟨fits, turns⟩
    have behind : avail w.stream = toInt (b.sz - w.stream.eod.offt) := by rw [avail, clean.edge]
    rcases lt_or_ge (text.chars.length : Int) (toInt (b.sz - w.stream.eod.offt)) with short | long
    · rcases fits short with ⟨next, run, grown, offt⟩
      refine ⟨_, next, run, ?_, fun _ => ⟨rfl, by omega⟩⟩
      rwa [if_pos nonneg]
    · rcases turns long with ⟨middle, full', tail', run, clean', unused', closes⟩
      have creatable : Creatable sz.toInt := room.resolve_left (behind ▸ not_lt.mpr long)
      rcases nextEdge_unused sys text clean' unused' creatable with ⟨taken, full_edge⟩
      rcases lt_or_ge (text.chars.length : Int) sz.toInt with short | long
      · rcases taken short with ⟨next, appended, grown, offt⟩
        refine ⟨_, next, run.trans appended, ?_, fun _ => ⟨rfl, offt.ge⟩⟩
        rw [if_pos nonneg]
        exact closes.trans grown
      · rcases full_edge long with ⟨next, appended, grown⟩
        refine ⟨_, next, run.trans appended, ?_, fun short => absurd short (not_lt.mpr long)⟩
        rw [if_neg refused]
        exact closes.trans grown
  · rw [if_neg used] at fine
    rcases fine with ⟨creatable, room⟩
    rcases good.clean (fun wrong => used wrong.1) with ⟨full, tail, clean⟩
    rcases clean.unfilled used with ⟨empty, unused⟩
    rcases nprintf_unused sys text clean empty unused creatable with ⟨fits, outgrown, -⟩
    rcases lt_or_ge (text.chars.length : Int) (toInt sz.toInt) with short | long
    · rcases fits short with ⟨next, run, grown, offt⟩
      refine ⟨_, next, run, ?_, fun _ => ⟨rfl, offt.ge⟩⟩
      rwa [if_pos nonneg]
    · have whole := room.resolve_left (not_lt.mpr long)
      rcases outgrown long whole with ⟨next, run, grown⟩
      refine ⟨_, next, run, ?_, fun short => absurd short (not_lt.mpr (whole ▸ long))⟩
      rwa [if_neg refused]

variable (sys) in
theorem nprintf_unfine {sz : Int64} {text : Text} (good : Good w.stream) (unfine : ¬ Fine (.nprintf sz text) w) :
    ∃ fault, vbytestreamNprintf sys sz.toInt (some text) w = .error fault := by
  have low := sz.le_toInt
  have high := sz.toInt_lt
  rw [Fine] at unfine
  by_cases used : Allocated w.stream.eod.idx w.stream
  · rw [if_pos used, not_and_or, not_or] at unfine
    rcases good with ⟨full, tail, clean⟩ | blocked
    · rcases clean.filled used with ⟨b, rest, rfl, some_data, more, small, unused⟩
      rcases unfine.resolve_left (not_not.mpr some_data) with ⟨long, uncreatable⟩
      rw [avail, clean.edge, not_lt] at long
      rcases nprintf_filling sys sz.toInt text clean some_data more small unused with
        ⟨-, turns⟩
      rcases turns long with ⟨middle, full', tail', run, clean', unused', -⟩
      rcases nextEdge_fault sys text clean' unused' low high uncreatable with ⟨fault, failed⟩
      exact ⟨fault, run.trans failed⟩
    · exact ⟨.assertion, nprintf_blocked blocked⟩
  · rw [if_neg used, not_and_or, not_or] at unfine
    rcases good.clean (fun wrong => used wrong.1) with ⟨full, tail, clean⟩
    rcases clean.unfilled used with ⟨empty, unused⟩
    rcases unfine with uncreatable | ⟨long, other⟩
    · exact nprintf_uncreatable clean empty unused low high uncreatable
    · by_cases creatable : Creatable sz.toInt
      · rcases nprintf_unused sys text clean empty unused creatable with ⟨-, -, failed⟩
        exact ⟨.assertion, failed (not_lt.mp long) other⟩
      · exact nprintf_uncreatable clean empty unused low high creatable

theorem Good.laid (good : Good s) : ∃ full tail, Laid s full tail := by
  rcases good with ⟨full, tail, clean⟩ | blocked
  · exact ⟨full, tail, clean.laid⟩
  · exact blocked.laid

theorem content_grown {next : Mnvbytestream} {bytes : List UInt8} (good : Good s) (grown : Grown s next bytes) :
    content next = content s ++ bytes := by
  rcases good.laid with ⟨full, tail, laid⟩
  exact grown.content 0 laid.before

theorem adopt_fine (good : Good w.stream) (fine : Fine (.adopt data) w) :
    ∃ next, vbytestreamAdopt data w = .ok (toInt data.sz, next) ∧
      Grown w.stream next.stream (data.data.take data.sz) := by
  rw [Fine] at fine
  by_cases some_data : 0 < w.stream.eod.offt
  · rw [if_pos some_data] at fine
    rcases good.clean (fun wrong => some_data.ne' wrong.2) with ⟨full, tail, clean⟩
    cases shape : clean.tail with
    | fresh empty unused => exact absurd empty some_data.ne'
    | filling b some more small unused =>
        rcases adopt_filling data clean some_data unused with ⟨next, run, blocked, pos, idx, whole⟩
        rw [spare, clean.edge] at fine
        replace fine : (b.data.take b.sz).drop w.stream.eod.offt.toNat = data.data.take data.sz := fine
        have front : (b.data.take b.sz).take w.stream.eod.offt.toNat = b.data.take w.stream.eod.offt.toNat := by
          rw [List.take_take, min_eq_left (by omega)]
        have edge : b.data.take b.sz = b.data.take w.stream.eod.offt.toNat ++ data.data.take data.sz := by
          rw [← fine, ← front, List.take_append_drop]
        refine ⟨next, run, pos, by omega, fun k below => ?_, .inr blocked⟩
        rw [whole k below, contentFrom_eq clean.split clean.idx, edge, List.append_assoc]
        rfl
  · rw [if_neg some_data] at fine
    rcases good.clean (fun wrong => fine wrong.1) with ⟨full, tail, clean⟩
    rcases clean.unfilled fine with ⟨empty, unused⟩
    exact adopt_unused data clean empty unused

variable (sys) in
/-- What an append does if it is fine. -/
theorem append_fine {op : EditOp} (good : Good w.stream) (fine : Fine op w) (appends : op ≠ .rewind) :
    ∃ answer next, edit sys op w = .ok (answer, next) ∧ Grown w.stream next.stream (op.added answer) := by
  cases op with
  | nprintf sz text =>
      rcases nprintf_fine sys good fine with ⟨answer, next, run, grown, -⟩
      exact ⟨answer, next, run, grown⟩
  | adopt data =>
      rcases adopt_fine good fine with ⟨next, run, grown⟩
      exact ⟨_, next, run, grown⟩
  | rewind => exact absurd rfl appends

variable (sys) in
/-- What a call does if it is fine: what it should, and the stream stays good. -/
theorem edit_fine {op : EditOp} (good : Good w.stream) (fine : Fine op w) :
    ∃ answer next, edit sys op w = .ok (answer, next) ∧ content next.stream = op.after answer (content w.stream) ∧
      Good next.stream := by
  by_cases rewinds : op = .rewind
  · rw [rewinds]
    exact ⟨0, _, rfl, rewind_content w, rewind_good good⟩
  · rcases append_fine sys good fine rewinds with ⟨answer, next, run, grown⟩
    refine ⟨answer, next, run, ?_, grown.good⟩
    rw [content_grown good grown]
    cases op with
    | nprintf sz text | adopt data => rfl
    | rewind => exact absurd rfl rewinds

theorem edit_unfine {op : EditOp} (good : Good w.stream) (unfine : ¬ Fine op w) : ¬ Upholds sys op w := by
  rintro ⟨answer, next, run, whole⟩
  cases op with
  | nprintf sz text =>
      rcases nprintf_unfine sys good unfine with ⟨fault, failed⟩
      cases run.symm.trans failed
  | adopt data =>
      rw [Fine] at unfine
      by_cases some_data : 0 < w.stream.eod.offt
      · rw [if_pos some_data] at unfine
        rcases good.clean (fun wrong => some_data.ne' wrong.2) with ⟨full, tail, clean⟩
        cases shape : clean.tail with
        | fresh empty unused => exact absurd empty some_data.ne'
        | filling b some more small unused =>
            rcases adopt_filling data clean some_data unused with ⟨next', run', -, -, -, whole'⟩
            rcases Prod.mk.inj (Except.ok.inj (run.symm.trans run')) with ⟨-, rfl⟩
            replace whole : content next.stream = content w.stream ++ data.data.take data.sz := whole
            rw [content, whole' 0 clean.laid.before, content, contentFrom_eq clean.split clean.idx, List.append_assoc,
              List.append_right_inj] at whole
            replace whole : b.data.take b.sz = b.data.take w.stream.eod.offt.toNat ++ data.data.take data.sz := whole
            have inside := b.whole
            have front : (b.data.take w.stream.eod.offt.toNat).length = w.stream.eod.offt.toNat :=
              List.length_take_of_le (by omega)
            apply unfine
            rw [spare, clean.edge]
            change (b.data.take b.sz).drop w.stream.eod.offt.toNat = _
            rw [whole, List.drop_left' front]
      · rw [if_neg some_data, not_not] at unfine
        rcases good with ⟨full, tail, clean⟩ | blocked
        · rcases clean.filled unfine with ⟨-, -, -, some, -⟩
          exact some_data some
        · cases run.symm.trans (adopt_blocked blocked)
  | rewind => exact unfine trivial

variable (sys) in
theorem fine_iff_upholds (op : EditOp) (w : World E) (good : Good w.stream) : Fine op w ↔ Upholds sys op w := by
  constructor
  · intro fine
    rcases edit_fine sys good fine with ⟨answer, next, run, whole, -⟩
    exact ⟨answer, next, run, whole⟩
  · intro upholds
    by_contra unfine
    exact edit_unfine good unfine upholds

theorem edit_keeps (op : EditOp) (w : World E) (answer : Int) (next : World E) (good : Good w.stream)
    (fine : Fine op w) (done : edit sys op w = .ok (answer, next)) : Good next.stream := by
  rcases edit_fine sys good fine with ⟨answer', next', run, -, kept⟩
  rcases Prod.mk.inj (Except.ok.inj (done.symm.trans run)) with ⟨-, rfl⟩
  exact kept

theorem init_good {growsz iovreserve : Nat} (init : vbytestreamInit growsz iovreserve = .ok s) : Good s := by
  rw [vbytestreamInit] at init
  split at init
  · cases init
    have split : ([] : List Iovec) = [] ++ [] := rfl
    exact good_of_unused split rfl (by simp) rfl (by simp)
  · cases init

/-- What holds of each call gives the content after the run. -/
theorem execute_content {ops : List EditOp} (upheld : Along (edit sys) (Upholds sys) ops w) :
    ∃ answers final, execute (edit sys) ops w = .ok (answers, final) ∧
      content final.stream = afterAll (content w.stream) ops answers := by
  induction ops generalizing w with
  | nil => exact ⟨[], w, rfl, rfl⟩
  | cons op ops ih =>
      rcases upheld with ⟨⟨answer, next, run, whole⟩, rest⟩
      rcases ih (rest answer next run) with ⟨answers, final, later, all⟩
      refine ⟨answer :: answers, final, execute_step run later, ?_⟩
      rw [all, whole, afterAll]

/-- From a fresh stream no assertion fires and the content is the concatenation of the
pieces since the last rewind, exactly if every call is a fine one. -/
theorem edits_upheld_iff {growsz iovreserve : Nat} {ops : List EditOp}
    (init : vbytestreamInit growsz iovreserve = .ok w.stream) :
    (Along (edit sys) (Upholds sys) ops w ∧ ∃ answers final, execute (edit sys) ops w = .ok (answers, final) ∧
      content final.stream = afterAll [] ops answers) ↔ Along (edit sys) Fine ops w := by
  have same : Along (edit sys) Fine ops w ↔ Along (edit sys) (Upholds sys) ops w :=
    along_iff (fine_iff_upholds sys) edit_keeps (init_good init)
  have empty : content w.stream = [] := by
    rw [vbytestreamInit] at init
    split at init
    · rw [← Except.ok.inj init]
      rfl
    · cases init
  constructor
  · exact fun holds => same.mpr holds.1
  · intro fine
    have upheld := same.mp fine
    have all := execute_content upheld
    rw [empty] at all
    exact ⟨upheld, all⟩

/-- New memory is full of `X`; no descriptor works. -/
def deafSystem : System Unit where
  iovMax := 1024
  malloc _ env := (fun _ => 88, env)
  readv _ env := (none, env)
  writev _ env := (none, env)

def freshStream : Mnvbytestream := { iov := [], eod := ⟨0, 0, 0⟩, pos := ⟨0, 0, 0⟩, growsz := 4 }

def letterA : Text := ⟨[97], by decide⟩

def letterB : Mnbytes := ⟨1, [98, 0], by decide⟩

theorem letters_upheld :
    (Along (edit deafSystem) (Upholds deafSystem) [.adopt letterB, .nprintf 4 letterA, .nprintf 4 letterA]
      ⟨freshStream, ()⟩ ∧
      ∃ answers final, execute (edit deafSystem) [.adopt letterB, .nprintf 4 letterA, .nprintf 4 letterA]
        ⟨freshStream, ()⟩ = .ok (answers, final) ∧
        content final.stream = afterAll [] [.adopt letterB, .nprintf 4 letterA, .nprintf 4 letterA] answers) ↔
      Along (edit deafSystem) Fine [.adopt letterB, .nprintf 4 letterA, .nprintf 4 letterA] ⟨freshStream, ()⟩ :=
  edits_upheld_iff (show vbytestreamInit 4 0 = .ok freshStream from rfl)

/-- A piece after an empty one, a piece after a rewind, and a buffer after a piece. -/
theorem edits_not_upheld :
    (execute (edit deafSystem) [.nprintf 4 ⟨[], by decide⟩, .nprintf 4 letterA] ⟨freshStream, ()⟩).map Prod.fst =
        .error .assertion ∧
      (execute (edit deafSystem) [.nprintf 4 letterA, .rewind, .nprintf 4 letterA] ⟨freshStream, ()⟩).map Prod.fst =
        .error .assertion ∧
      (execute (edit deafSystem) [.nprintf 4 letterA, .adopt letterB] ⟨freshStream, ()⟩).map
        (fun result => content result.2.stream) = .ok [97, 0, 88, 88] := by
  decide +kernel

end MnCommon.Vbytestream
