import MnCommon.Vbytestream.Layout

/-! What `vbytestream_nprintf` does to the content of a vectored stream. -/

namespace MnCommon.Vbytestream

open Memory (Fault)
open Bytestream (Text toSize printed length_printed)

/-- A stream that runs of appends lead to. -/
def Good (s : Mnvbytestream) : Prop := (∃ full tail, Clean s full tail) ∨ Blocked s

/-- The content is longer by some bytes at its end, also seen from a later segment. -/
structure Grown (s next : Mnvbytestream) (bytes : List UInt8) : Prop where
  pos : next.pos = s.pos
  idx : s.eod.idx ≤ next.eod.idx
  content : ∀ k : Nat, (k : Int) ≤ s.eod.idx → contentFrom k next = contentFrom k s ++ bytes
  good : Good next

variable {E : Type} {sys : System E} {w : World E} {s : Mnvbytestream} {full tail rest : List Iovec} {sz : Int}
  {text : Text}
  {data : Mnbytes}

/-- A stream whose edge holds some text of at least one character is in good order,
one without is blocked. -/
theorem good_of_edge {b : Mnbytes} (split : s.iov = full ++ { iovBase := some b, iovLen := b.sz } :: rest)
    (idx : s.eod.idx = full.length) (closed : ∀ slot ∈ full, slot.Closed) (nonneg : 0 ≤ s.eod.offt)
    (more : s.eod.offt < b.sz) (small : b.sz < 2 ^ 63) (unused : ∀ slot ∈ rest, slot = iovecInit) : Good s := by
  rcases nonneg.eq_or_lt with empty | some
  · refine .inr ⟨empty.symm, ⟨full, _, laid_of_empty split idx closed empty.symm⟩, ?_, ?_⟩
    · exact allocated_end split idx (Option.some_ne_none b)
    · exact allocated_first split closed (Option.some_ne_none b)
  · exact .inl ⟨full, _, split, idx, closed, .filling b some more small unused⟩

theorem good_of_unused (split : s.iov = full ++ tail) (idx : s.eod.idx = full.length)
    (closed : ∀ slot ∈ full, slot.Closed) (empty : s.eod.offt = 0) (unused : ∀ slot ∈ tail, slot = iovecInit) :
    Good s :=
  .inl ⟨full, tail, split, idx, closed, .fresh empty unused⟩

/-- A piece in a segment of its own. -/
theorem vsnprintf_fresh (b : Mnbytes) (size : Nat) (text : Text) (fits : (printed size text).length ≤ b.data.length) :
    ∃ b', vsnprintf { iovBase := some b, iovLen := b.sz } 0 size (some text) =
        .ok (text.chars.length, { iovBase := some b', iovLen := b'.sz }) ∧ b'.sz = b.sz ∧
      (text.chars.length < size → b'.data.take text.chars.length = text.chars) := by
  rcases vsnprintf_spec b b.sz size text le_rfl (by omega) with
    ⟨b', print, same, -, whole⟩
  refine ⟨b', ?_, same, fun short => ?_⟩
  · rw [print, same]
  · have taken := whole short
    rwa [zero_add, Int.toNat_natCast, Int.toNat_zero, List.take_zero, List.nil_append] at taken

variable (sys) (sz) in
theorem openEdge_unused (clean : Clean w.stream full tail) (empty : w.stream.eod.offt = 0)
    (unused : ∀ slot ∈ tail, slot = iovecInit) :
    ∃ rest, (∀ slot ∈ rest, slot = iovecInit) ∧
      openEdge sys sz w = (iovecAlloc sys iovecInit (toSize sz) w.env).map fun made =>
        (made.1, ⟨{ w.stream with iov := full ++ iovecInit :: rest }, made.2⟩) := by
  rcases iovecGetSafe_unused full unused with ⟨rest, got, unused'⟩
  refine ⟨rest, unused', ?_⟩
  rw [openEdge, clean.split, clean.idx, got]
  simp only [bind, Except.bind, empty, if_true, iovecInit]
  cases iovecAlloc sys { iovBase := none, iovLen := 0 } (toSize sz) w.env <;> rfl

theorem put_end {slot : Iovec} {idx : Int} (split : s.iov = full ++ slot :: rest) (here : idx = full.length)
    (edge : Iovec) : (s.put idx edge).iov = full ++ edge :: rest := by
  rw [Mnvbytestream.put, here, Int.toNat_natCast, split]
  exact set_end full slot edge rest

/-- A longer content, from how the slots are laid out afterwards. -/
theorem grown_of_layout {next : Mnvbytestream} {full' tail' : List Iovec} {bytes : List UInt8} (pos : next.pos = s.pos)
    (split : next.iov = full' ++ tail') (idx : next.eod.idx = full'.length) (order : s.eod.idx ≤ full'.length)
    (good : Good next) (same : ∀ k : Nat, (k : Int) ≤ s.eod.idx → (full'.drop k).flatMap Iovec.segment ++
      (tail'.headD iovecInit).bytes.take next.eod.offt.toNat = contentFrom k s ++ bytes) : Grown s next bytes := by
  refine ⟨pos, idx ▸ order, fun k below => ?_, good⟩
  rw [contentFrom_eq split idx]
  exact same k below

theorem Clean.before (clean : Clean s full tail) (empty : s.eod.offt = 0) (k : Nat) :
    contentFrom k s = (full.drop k).flatMap Iovec.segment := by
  rw [contentFrom_eq clean.split clean.idx, empty, Int.toNat_zero, List.take_zero, List.append_nil]

/-- The edge has been made for the text and holds it. -/
theorem grown_printed {b : Mnbytes} (clean : Clean s full tail) (empty : s.eod.offt = 0)
    (unused : ∀ slot ∈ rest, slot = iovecInit) (taken : b.data.take text.chars.length = text.chars)
    (short : text.chars.length < b.sz) (small : b.sz < 2 ^ 63) :
    Grown s (({ s with iov := full ++ iovecInit :: rest }.put s.eod.idx { iovBase := some b, iovLen := b.sz }).advance
      text.chars.length) text.chars ∧ s.eod.offt + text.chars.length = text.chars.length := by
  let made : Mnvbytestream := { s with iov := full ++ iovecInit :: rest }
  let next := (made.put s.eod.idx { iovBase := some b, iovLen := b.sz }).advance text.chars.length
  have split : next.iov = full ++ { iovBase := some b, iovLen := b.sz } :: rest :=
    put_end (s := made) rfl clean.idx _
  have start : s.eod.offt + text.chars.length = text.chars.length := by omega
  have good : Good next := by
    apply good_of_edge split clean.idx clean.closed
    · change 0 ≤ s.eod.offt + text.chars.length
      omega
    · change s.eod.offt + text.chars.length < b.sz
      omega
    · exact small
    · exact unused
  refine ⟨grown_of_layout rfl split clean.idx clean.idx.le good fun k _ => ?_, start⟩
  have edge : b.data.take (s.eod.offt + text.chars.length).toNat = text.chars := by
    rw [start, Int.toNat_natCast]
    exact taken
  rw [clean.before empty k]
  exact congrArg _ edge

/-- The edge has been made for the text, and has been given up. -/
theorem grown_refused (clean : Clean s full tail) (empty : s.eod.offt = 0)
    (unused : ∀ slot ∈ rest, slot = iovecInit) :
    Grown s ({ s with iov := full ++ iovecInit :: rest }.put s.eod.idx iovecInit) [] := by
  let made : Mnvbytestream := { s with iov := full ++ iovecInit :: rest }
  have split : (made.put s.eod.idx iovecInit).iov = full ++ iovecInit :: rest := put_end (s := made) rfl clean.idx _
  have all : ∀ slot ∈ iovecInit :: rest, slot = iovecInit := List.forall_mem_cons.mpr ⟨rfl, unused⟩
  refine grown_of_layout rfl split clean.idx clean.idx.le (good_of_unused split clean.idx clean.closed empty all)
    fun k _ => ?_
  have edge : iovecInit.bytes.take s.eod.offt.toNat = [] := List.take_nil
  rw [clean.before empty k]
  exact congrArg _ edge

variable (sys) (text) in
/-- A piece at the start of a segment without memory. -/
theorem nprintf_unused (clean : Clean w.stream full tail) (empty : w.stream.eod.offt = 0)
    (unused : ∀ slot ∈ tail, slot = iovecInit) (creatable : Creatable sz) :
    (text.chars.length < toInt sz → ∃ next, vbytestreamNprintf sys sz (some text) w = .ok (text.chars.length, next) ∧
      Grown w.stream next.stream text.chars ∧ next.stream.eod.offt = text.chars.length) ∧
    (toInt sz ≤ text.chars.length → toInt sz = sz → ∃ next,
      vbytestreamNprintf sys sz (some text) w = .ok (NPRINTF_NEEDMORE, next) ∧ Grown w.stream next.stream []) ∧
    (toInt sz ≤ text.chars.length → toInt sz ≠ sz →
      vbytestreamNprintf sys sz (some text) w = .error .assertion) := by
  rcases openEdge_unused sys sz clean empty unused with ⟨rest, unused', opened⟩
  rcases iovecAlloc_init sys creatable w.env with ⟨b, env, made, size⟩
  rw [made] at opened
  have inside := b.whole
  have low := creatable.1
  have high := creatable.2
  have room := printed_room low.le text
  rcases vsnprintf_fresh b (toSize (toInt sz)) text (by omega) with ⟨b', printed, same, taken⟩
  rw [vbytestreamNprintf, opened]
  simp only [Except.map, bind, Except.bind, empty, sub_zero, size, printed]
  refine ⟨fun short => ?_, fun long whole => ?_, fun long other => ?_⟩
  · have bound := toInt_eq_ite sz
    have count : (toSize (toInt sz) : Int) = toInt sz := Bytestream.toSize_of_range (by omega) (by omega)
    rw [if_neg (not_le.mpr short)]
    exact ⟨⟨_, env⟩, rfl, grown_printed clean empty unused' (taken (by omega)) (by omega) (by omega)⟩
  · rw [if_pos long, if_pos trivial, if_pos whole]
    exact ⟨⟨_, env⟩, rfl, grown_refused clean empty unused'⟩
  · rw [if_pos long, if_pos trivial, if_neg other]

/-- The mark at the start of the next segment. -/
def turned (s : Mnvbytestream) : Mnvbytestream := { s with eod := { s.eod with idx := s.eod.idx + 1, offt := 0 } }

variable (sys) (text) in
theorem nextEdge_unused (clean : Clean (turned w.stream) full tail) (unused : ∀ slot ∈ tail, slot = iovecInit)
    (creatable : Creatable sz) :
    (text.chars.length < sz → ∃ next, nextEdge sys sz (some text) w = .ok (text.chars.length, next) ∧
      Grown (turned w.stream) next.stream text.chars ∧ next.stream.eod.offt = text.chars.length) ∧
    (sz ≤ text.chars.length → ∃ next, nextEdge sys sz (some text) w = .ok (NPRINTF_NEEDMORE, next) ∧
      Grown (turned w.stream) next.stream []) := by
  rcases iovecGetSafe_unused full unused with ⟨rest, got, unused'⟩
  rcases iovecAlloc_init sys creatable w.env with ⟨b, env, made, size⟩
  have split : w.stream.iov = full ++ tail := clean.split
  have idx : w.stream.eod.idx + 1 = full.length := clean.idx
  have whole := b.whole
  have count := creatable.toSize
  have low := creatable.1
  have high := creatable.2
  have length := length_printed (toSize sz) text
  rcases vsnprintf_fresh b (toSize sz) text (by omega) with ⟨b', printed, same, taken⟩
  rw [nextEdge]
  simp only [split, idx, got, bind, Except.bind]
  have plain : iovecInit.iovBase = none := rfl
  simp only [plain, if_true, made, printed]
  refine ⟨fun short => ?_, fun long => ?_⟩
  · rw [if_neg (not_le.mpr short), ← idx]
    exact ⟨⟨_, env⟩, rfl, grown_printed clean rfl unused' (taken (by omega)) (by omega) (by omega)⟩
  · rw [if_pos long, ← idx]
    exact ⟨⟨_, env⟩, rfl, grown_refused clean rfl unused'⟩

variable (sys) (text) in
theorem nextEdge_fault (clean : Clean (turned w.stream) full tail) (unused : ∀ slot ∈ tail, slot = iovecInit)
    (low : -2 ^ 63 ≤ sz) (high : sz < 2 ^ 63) (uncreatable : ¬ Creatable sz) :
    ∃ fault, nextEdge sys sz (some text) w = .error fault := by
  rcases iovecGetSafe_unused full unused with ⟨rest, got, -⟩
  rcases iovecAlloc_fault sys low high uncreatable iovecInit w.env with ⟨fault, failed⟩
  have split : w.stream.iov = full ++ tail := clean.split
  have idx : w.stream.eod.idx + 1 = full.length := clean.idx
  have plain : iovecInit.iovBase = none := rfl
  refine ⟨fault, ?_⟩
  rw [nextEdge]
  simp only [split, idx, got, bind, Except.bind, plain, if_true, failed]

theorem Grown.trans {middle next : Mnvbytestream} {first second : List UInt8} (one : Grown s middle first)
    (two : Grown middle next second) : Grown s next (first ++ second) := by
  refine ⟨two.pos.trans one.pos, one.idx.trans two.idx, fun k below => ?_, two.good⟩
  rw [two.content k (below.trans one.idx), one.content k below, List.append_assoc]

/-- A piece has been written behind the data of the edge. -/
theorem grown_filled {b b' : Mnbytes} (clean : Clean s full ({ iovBase := some b, iovLen := b.sz } :: rest))
    (same : b'.sz = b.sz) (start : 0 ≤ s.eod.offt) (fits : s.eod.offt + text.chars.length < b.sz)
    (small : b.sz < 2 ^ 63) (unused : ∀ slot ∈ rest, slot = iovecInit)
    (taken : b'.data.take (s.eod.offt + text.chars.length).toNat = b.data.take s.eod.offt.toNat ++ text.chars) :
    Grown s ((s.put s.eod.idx { iovBase := some b', iovLen := b.sz }).advance text.chars.length) text.chars := by
  let next := (s.put s.eod.idx { iovBase := some b', iovLen := b.sz }).advance text.chars.length
  have all := contentFrom_eq clean.split clean.idx
  have split : next.iov = full ++ { iovBase := some b', iovLen := b'.sz } :: rest := by
    rw [same]
    exact put_end clean.split clean.idx _
  have good : Good next := by
    apply good_of_edge split clean.idx clean.closed
    · change 0 ≤ s.eod.offt + text.chars.length
      omega
    · change s.eod.offt + text.chars.length < b'.sz
      omega
    · omega
    · exact unused
  refine grown_of_layout rfl split clean.idx clean.idx.le good fun k _ => ?_
  rw [all, List.append_assoc]
  exact congrArg _ taken

/-- The edge has been closed where its data end, and the mark is behind it. -/
theorem turned_closed {b b' : Mnbytes} (clean : Clean s full ({ iovBase := some b, iovLen := b.sz } :: rest))
    (same : b'.sz = b.sz) (start : 0 ≤ s.eod.offt) (more : s.eod.offt < b.sz) (small : b.sz < 2 ^ 63)
    (unused : ∀ slot ∈ rest, slot = iovecInit)
    (kept : b'.data.take s.eod.offt.toNat = b.data.take s.eod.offt.toNat) :
    let middle := s.put s.eod.idx { iovBase := some b', iovLen := toSize s.eod.offt }
    ∃ full', Clean (turned middle) full' rest ∧ Grown s (turned middle) [] := by
  intro middle
  let closed : Iovec := { iovBase := some b', iovLen := toSize s.eod.offt }
  have here := clean.idx
  have size : (toSize s.eod.offt : Int) = s.eod.offt := Bytestream.toSize_of_range start (by omega)
  have split : (turned middle).iov = (full ++ [closed]) ++ rest := by
    rw [List.append_assoc]
    exact put_end clean.split clean.idx closed
  have idx : (turned middle).eod.idx = ((full ++ [closed]).length : Int) := by
    rw [List.length_append, List.length_singleton]
    change s.eod.idx + 1 = _
    omega
  have used : closed.Closed := by
    have whole := b'.whole
    refine ⟨b', rfl, ?_⟩
    change toSize s.eod.offt ≤ b'.data.length
    omega
  have closes : ∀ slot ∈ full ++ [closed], slot.Closed := by
    intro slot inside
    rcases List.mem_append.mp inside with old | new
    · exact clean.closed slot old
    · exact List.mem_singleton.mp new ▸ used
  have order : s.eod.idx ≤ ((full ++ [closed]).length : Int) := by
    rw [← idx]
    exact (Int.lt_succ _).le
  have segment : closed.segment = b.data.take s.eod.offt.toNat := by
    have width : closed.iovLen = s.eod.offt.toNat := by
      change toSize s.eod.offt = _
      omega
    rw [Iovec.segment, width]
    exact kept
  refine ⟨full ++ [closed], ⟨split, idx, closes, .fresh rfl unused⟩,
    grown_of_layout rfl split idx order (good_of_unused split idx closes rfl unused) fun k below => ?_⟩
  have front : k ≤ full.length := by omega
  rw [contentFrom_eq clean.split clean.idx, List.append_nil, List.drop_append_of_le_length front, List.flatMap_append,
    List.flatMap_singleton, segment]
  exact List.append_nil _

variable (sys) (sz) (text) in
/-- A piece behind the data of a segment. -/
theorem nprintf_filling {b : Mnbytes} (clean : Clean w.stream full ({ iovBase := some b, iovLen := b.sz } :: rest))
    (some_data : 0 < w.stream.eod.offt) (more : w.stream.eod.offt < b.sz) (small : b.sz < 2 ^ 63)
    (unused : ∀ slot ∈ rest, slot = iovecInit) :
    (text.chars.length < toInt (b.sz - w.stream.eod.offt) → ∃ next,
      vbytestreamNprintf sys sz (some text) w = .ok (text.chars.length, next) ∧
        Grown w.stream next.stream text.chars ∧ next.stream.eod.offt = w.stream.eod.offt + text.chars.length) ∧
    (toInt (b.sz - w.stream.eod.offt) ≤ text.chars.length → ∃ middle full' tail',
      vbytestreamNprintf sys sz (some text) w = nextEdge sys sz (some text) middle ∧
        Clean (turned middle.stream) full' tail' ∧ (∀ slot ∈ tail', slot = iovecInit) ∧
        Grown w.stream (turned middle.stream) []) := by
  have inside := b.whole
  have room := printed_room (n := b.sz - w.stream.eod.offt) (by omega) text
  rcases vsnprintf_spec b b.sz (toSize (toInt (b.sz - w.stream.eod.offt))) text some_data.le
    (by omega) with ⟨b', printed, same, kept, taken⟩
  have opened : openEdge sys sz w = .ok ({ iovBase := some b, iovLen := b.sz }, w) := by
    rw [openEdge, clean.idx, clean.split, iovecGetSafe_end]
    simp only [bind, Except.bind, reduceCtorEq, if_false, if_pos some_data, ← clean.split]
    rfl
  rw [vbytestreamNprintf, opened]
  simp only [bind, Except.bind, printed]
  constructor
  · intro short
    have bound := toInt_eq_ite (b.sz - w.stream.eod.offt)
    have count : (toSize (toInt (b.sz - w.stream.eod.offt)) : Int) = toInt (b.sz - w.stream.eod.offt) :=
      Bytestream.toSize_of_range (by omega) (by omega)
    rw [if_neg (not_le.mpr short)]
    exact ⟨⟨_, w.env⟩, rfl, grown_filled clean same some_data.le (by omega) small unused (taken (by omega)), rfl⟩
  · intro long
    rcases turned_closed clean same some_data.le more small unused kept with ⟨full', clean', grown⟩
    rw [if_pos long, if_neg some_data.ne']
    exact ⟨⟨_, w.env⟩, full', rest, rfl, clean', unused, grown⟩

end MnCommon.Vbytestream
