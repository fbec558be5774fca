import Mathlib.Algebra.Order.BigOperators.Group.List
import MnCommon.Jparse.Weights
import MnCommon.JsonWriter.Objects

/-! When the reader of objects agrees with the writer. -/

namespace MnCommon.JsonWriter

open Bytes (Strz bytesJsonEscape escaped escape_chars)
open Bytestream
open Grammars
open Jparse (JparseCtx StrPair collect kept weight jparseExpectObjectIter)
open Memory (Fault Along execute)

variable {E : Type} {sys : System E} {w next : World E} {pair : Strz × Strz} {pairs : List (Strz × Strz)}
  {base bytes chars : List UInt8} {s after : MnByteStream} {n : Nat} {amount answer : Int}

theorem units_le_length (chars : List UInt8) : units chars ≤ chars.length := by
  induction chars with
  | nil => exact le_rfl
  | cons c chars ih =>
      have bounds := units_cons_bounds c chars
      rw [List.length_cons]
      omega

/-- An escape is one unit. -/
theorem units_escaped (chars : List UInt8) : units (chars.flatMap escaped) ≤ chars.length := by
  induction chars with
  | nil => exact le_rfl
  | cons c chars ih =>
      have first : units (escaped c) = 1 := by
        rcases escaped_cases c with ⟨same, -⟩ | ⟨d, same, -⟩
        · rw [same]
          rfl
        · rw [same]
          rfl
      have parts := units_append_le (escaped c) (chars.flatMap escaped)
      rw [List.flatMap_cons, List.length_cons]
      omega

theorem units_pairText (plain : Plain pair) : units (pairText pair) ≤ weight (kept pair) := by
  have value := units_escaped pair.2.chars
  have key := units_le_length pair.1.chars
  have parts : pairText pair = [34] ++ (pair.1.chars ++ ([34, 58, 34] ++ (pair.2.chars.flatMap escaped ++ [34, 44]))) := by
    rw [pairText_eq plain, Jparse.member, escape_chars]
    simp
  have marks : units [34] = 1 ∧ units [34, 58, 34] = 3 ∧ units [34, 44] = 2 := by decide
  have first := units_append_le [34] (pair.1.chars ++ ([34, 58, 34] ++ (pair.2.chars.flatMap escaped ++ [34, 44])))
  have second := units_append_le pair.1.chars ([34, 58, 34] ++ (pair.2.chars.flatMap escaped ++ [34, 44]))
  have third := units_append_le [34, 58, 34] (pair.2.chars.flatMap escaped ++ [34, 44])
  have fourth := units_append_le (pair.2.chars.flatMap escaped) [34, 44]
  rw [parts]
  change _ ≤ pair.1.chars.length + pair.2.chars.length + 6
  omega

/-- What a pair adds to the text. -/
def gain (pair : Strz × Strz) : Nat := if (pairText pair).length < 2 ^ 31 then weight (kept pair) else 0

/-- The data begin as they have begun, and what has been added has so many units at most. -/
structure Spread (base : List UInt8) (n : Nat) (s : MnByteStream) : Prop where
  buffered : Buffered s
  parts : ∃ front back, content s = front ++ back ∧ front <+: base ∧ units back ≤ n

theorem Spread.roomier (spread : Spread base n s) (roomier : Roomier s after) : Spread base n after := by
  rcases spread.parts with ⟨front, back, same, begins, few⟩
  exact ⟨roomier.buffered, front, back, roomier.content.trans same, begins, few⟩

theorem Spread.extended (spread : Spread base n s) (extended : Extended s after bytes) :
    Spread base (n + units bytes) after := by
  rcases spread.parts with ⟨front, back, same, begins, few⟩
  refine ⟨extended.buffered, front, back ++ bytes, ?_, begins, ?_⟩
  · rw [extended.content, same, List.append_assoc]
  · have parts := units_append_le back bytes
    omega

theorem Spread.shorter (spread : Spread base n s) (some : 0 < s.eod) : Spread base n { s with eod := s.eod - 1 } := by
  rcases spread.parts with ⟨front, back, same, begins, few⟩
  rcases content_shorter spread.buffered some with ⟨dropped, buffered⟩
  refine ⟨buffered, ?_⟩
  rw [dropped, same]
  by_cases none : back = []
  · subst none
    refine ⟨front.dropLast, [], ?_, (List.dropLast_prefix front).trans begins, Nat.zero_le _⟩
    rw [List.append_nil, List.append_nil]
  · refine ⟨front, back.dropLast, List.dropLast_append_of_ne_nil none, begins, ?_⟩
    exact (units_dropLast_le back).trans few

theorem Spread.mono {m : Nat} (spread : Spread base n s) (less : n ≤ m) : Spread base m s := by
  rcases spread.parts with ⟨front, back, same, begins, few⟩
  exact ⟨spread.buffered, front, back, same, begins, few.trans less⟩

theorem makeRoom_eod (amount : Int) (w : World E) : (makeRoom sys amount w).2.stream.eod = w.stream.eod := by
  rw [makeRoom]
  split_ifs
  · rw [bytestreamGrow]
    dsimp only
    split_ifs <;> rfl
  · rfl

/-- The effect of a pair that is too long. -/
theorem call_long (long : ¬ (pairText pair).length < 2 ^ 31)
    (grows : (ObjectCall.pair pair.1 pair.2).Grows sys w)
    (run : (ObjectCall.pair pair.1 pair.2).call sys w = .ok (answer, next)) :
    ∃ middle, makeRoom sys (Writer.bytesPair true pair.1 pair.2).limit w = (true, middle) ∧
      (next = middle ∨ next = { middle with stream := { middle.stream with eod := middle.stream.eod - 1 } }) := by
  rcases grows with ⟨middle, room, -⟩
  refine ⟨middle, room, ?_⟩
  have whole := (write_eq (.bytesPair true pair.1 pair.2) w).symm.trans run
  have failed : formatted (Writer.bytesPair true pair.1 pair.2).text = none := formatted_long long
  rw [bytestreamNprintf, failed, appendFormatted_none room] at whole
  have told := congrArg Prod.snd (Except.ok.inj whole)
  rw [apply_ite Prod.snd] at told
  change _ = next at told
  rw [← told]
  split_ifs
  · exact .inl rfl
  · exact .inr rfl

/-- A pair adds its text, or a byte is lost. -/
theorem spread_pair (spread : Spread base n w.stream) (plain : Plain pair)
    (grows : (ObjectCall.pair pair.1 pair.2).Grows sys w)
    (run : (ObjectCall.pair pair.1 pair.2).call sys w = .ok (answer, next)) :
    Spread base (n + gain pair) next.stream ∨ next.stream.eod < 0 := by
  rw [gain]
  split_ifs with short
  · rcases call_pair plain short spread.buffered grows with ⟨answer', next', run', extended⟩
    cases run.symm.trans run'
    rw [← pairText_eq plain] at extended
    have units := units_pairText plain
    exact .inl ((spread.extended extended).mono (by omega))
  · rcases call_long short grows run with ⟨middle, room, same⟩
    have limit := limit_lt (.bytesPair true pair.1 pair.2)
    have roomier := (makeRoom_spec spread.buffered (Int.natCast_nonneg _) (by omega) room).1
    have spread' := spread.roomier roomier
    rcases same with rfl | rfl
    · exact .inl spread'
    · by_cases some : 0 < middle.stream.eod
      · exact .inl (spread'.shorter some)
      · refine .inr ?_
        change middle.stream.eod - 1 < 0
        omega

/-- In front of the buffer there is no way back. -/
theorem adrift_pair (adrift : w.stream.eod < 0) (plain : Plain pair) (grows : (ObjectCall.pair pair.1 pair.2).Grows sys w)
    (run : (ObjectCall.pair pair.1 pair.2).call sys w = .ok (answer, next)) : next.stream.eod < 0 := by
  by_cases short : (pairText pair).length < 2 ^ 31
  · have below := bytesPair_below true (fun c inside => (plain.key c inside).1) plain.value short
    have whole := (write_eq (.bytesPair true pair.1 pair.2) w).symm.trans run
    have text : formatted (Writer.bytesPair true pair.1 pair.2).text = some ⟨pairText pair, short⟩ := formatted_short short
    rcases grows with ⟨middle, room, -⟩
    have eod := @makeRoom_eod _ sys (Writer.bytesPair true pair.1 pair.2).limit w
    rw [room] at eod
    change middle.stream.eod = _ at eod
    have some : (Writer.bytesPair true pair.1 pair.2).limit ≠ 0 := by
      intro zero
      rw [zero] at below
      exact absurd below (not_lt.mpr (Int.natCast_nonneg _))
    rw [bytestreamNprintf, text, appendFormatted, room] at whole
    dsimp only at whole
    rw [vsnprintf, if_neg some, poke, if_neg (by simp), if_neg (by omega)] at whole
    cases whole
  · rcases call_long short grows run with ⟨middle, room, same⟩
    have eod := @makeRoom_eod _ sys (Writer.bytesPair true pair.1 pair.2).limit w
    rw [room] at eod
    change middle.stream.eod = _ at eod
    rcases same with rfl | rfl
    · omega
    · change middle.stream.eod - 1 < 0
      omega

theorem peek_negative {start : Int} (negative : start < 0) (s : MnByteStream) : peek start s = .error .dangling := by
  rw [peek]
  split
  · rw [if_neg (by omega)]
  · rfl

/-- The comma is chopped or there is none. -/
theorem chopComma_cases (run : ObjectCall.chopComma.call sys w = .ok (answer, next)) :
    0 < w.stream.eod ∧ (next = w ∨ next = { w with stream := { w.stream with eod := w.stream.eod - 1 } }) := by
  rw [ObjectCall.call, mnjsonChopComma] at run
  rcases Memory.of_bind_ok run with ⟨ch, looked, rest⟩
  have some : 0 < w.stream.eod := by
    by_contra none
    cases looked.symm.trans (peek_negative (by omega) w.stream)
  refine ⟨some, ?_⟩
  split_ifs at rest
  · cases rest
    exact .inr rfl
  · cases rest
    exact .inl rfl

/-- A run that ends has not left the buffer. -/
theorem spread_run {answers : List Int} {final : World E} (plain : ∀ pair ∈ pairs, Plain pair)
    (state : Spread base n w.stream ∨ w.stream.eod < 0)
    (grows : Along (ObjectCall.call sys) (ObjectCall.Grows sys)
      (pairs.map (fun pair => .pair pair.1 pair.2) ++ [.chopComma, .cat closing]) w)
    (run : execute (ObjectCall.call sys) (pairs.map (fun pair => .pair pair.1 pair.2) ++ [.chopComma, .cat closing]) w =
      .ok (answers, final)) : Spread base (n + (pairs.map gain).sum + 1) final.stream := by
  induction pairs generalizing w n answers with
  | nil =>
      rcases Memory.execute_cons run with ⟨answer, chopped, others, called, rest⟩
      rcases Memory.execute_cons rest with ⟨answer', last, others', called', rest'⟩
      cases rest'
      rcases chopComma_cases called with ⟨some, same⟩
      rcases state with spread | adrift
      · have spread' : Spread base n chopped.stream := by
          rcases same with rfl | rfl
          · exact spread
          · exact spread.shorter some
        rcases call_cat spread'.buffered (grows.2 answer chopped called).1 with ⟨answer'', next, same, extended⟩
        cases called'.symm.trans same
        exact spread'.extended extended
      · exact absurd some (by omega)
  | cons pair pairs ih =>
      rcases List.forall_mem_cons.mp plain with ⟨first, others⟩
      rcases Memory.execute_cons run with ⟨answer, next, answers', called, rest⟩
      have grows' := grows.2 answer next called
      have state' : Spread base (n + gain pair) next.stream ∨ next.stream.eod < 0 := by
        rcases state with spread | adrift
        · exact spread_pair spread first grows.1 called
        · exact .inr (adrift_pair adrift first grows.1 called)
      have whole := ih others state' grows' rest
      rw [List.map_cons, List.sum_cons, ← Nat.add_assoc n]
      exact whole

theorem gain_le (pair : Strz × Strz) : gain pair ≤ weight (kept pair) := by
  rw [gain]
  split_ifs
  · exact le_rfl
  · exact Nat.zero_le _

/-- A pair that is too long is missing. -/
theorem sum_gain (among : pair ∈ pairs) (long : ¬ (pairText pair).length < 2 ^ 31) :
    (pairs.map gain).sum + 6 ≤ ((pairs.map kept).map weight).sum := by
  have below (pairs : List (Strz × Strz)) : (pairs.map gain).sum ≤ ((pairs.map kept).map weight).sum := by
    rw [List.map_map]
    exact List.sum_le_sum fun pair _ => gain_le pair
  induction pairs with
  | nil => cases among
  | cons first pairs ih =>
      simp only [List.map_cons, List.sum_cons]
      rcases List.mem_cons.mp among with rfl | among
      · have none : gain pair = 0 := if_neg long
        have rest := below pairs
        have some : 6 ≤ weight (kept pair) := Nat.le_add_left ..
        omega
      · have rest := ih among
        have here := gain_le first
        omega

theorem short_of_agrees (plain : ∀ pair ∈ pairs, Plain pair) (buffered : Buffered w.stream)
    (grows : Along (ObjectCall.call sys) (ObjectCall.Grows sys) (objectCalls pairs) w) (agrees : Agrees sys pairs w) :
    ∀ pair ∈ pairs, (pairText pair).length < 2 ^ 31 := by
  intro pair among
  by_contra long
  rcases agrees with ⟨answers, final, text, run, added, reads⟩
  rcases Memory.execute_cons run with ⟨answer, first, others, called, rest⟩
  rcases call_cat buffered grows.1 with ⟨answer', first', called', opened⟩
  cases called.symm.trans called'
  have start : Spread (content w.stream) 1 first.stream :=
    ⟨opened.buffered, content w.stream, [123], opened.content, List.prefix_rfl, le_rfl⟩
  have spread := spread_run plain (.inl start) (grows.2 answer first called) rest
  rcases spread.parts with ⟨front, back, same, ⟨dropped, begins⟩, few⟩
  have behind : back = dropped ++ text := by
    rw [added, ← begins, List.append_assoc] at same
    exact (List.append_cancel_left same).symm
  let ctx : JparseCtx := { data := text, feed := [], pos := 0, errorpos := -1 }
  have inside : ctx.Inside := ⟨.inl rfl, nofun⟩
  have split : ctx.unread = text := List.append_nil text
  rcases reads ctx [] inside (split.trans (List.append_nil text).symm) with ⟨done, list⟩
  have held := Jparse.jparseExpectObjectIter_weights done inside
  rw [list, split] at held
  have suffix := units_append_ge dropped text
  rw [← behind] at suffix
  have missing := sum_gain among long
  omega

/-- The reader agrees with the writer exactly if each pair is short enough for the formatter. -/
theorem agrees_iff (pairs : List (Strz × Strz)) (w : World E) (plain : ∀ pair ∈ pairs, Plain pair)
    (buffered : Buffered w.stream)
    (grows : Along (ObjectCall.call sys) (ObjectCall.Grows sys) (objectCalls pairs) w) :
    Agrees sys pairs w ↔ ∀ pair ∈ pairs, (pairText pair).length < 2 ^ 31 :=
  ⟨short_of_agrees plain buffered grows, fun short => agrees_of_short plain short buffered grows⟩

/-! Systems that grant the memory. -/

theorem makeRoom_granted (grants : ∀ size env, (sys.realloc size env).1 = true) (missing : 0 < need amount w.stream)
    (small : toSize (w.stream.sz + toSize (max (need amount w.stream) w.stream.growsz)) < 2 ^ 63) :
    (makeRoom sys amount w).1 = true := by
  have grown (size : Nat) (env : E) (short : size < 2 ^ 63) : (allocate sys size env).1 = true := by
    change (decide (size < 2 ^ 63) && (sys.realloc size env).1) = true
    rw [grants, decide_eq_true short]
    rfl
  have there := grown _ w.env small
  rw [need] at missing small there
  rw [makeRoom, if_pos missing, bytestreamGrow]
  dsimp only
  rw [there]
  rfl

theorem granted_of_realloc (grants : ∀ size env, (sys.realloc size env).1 = true) (buffered : Buffered w.stream)
    (nonneg : 0 ≤ w.stream.sz) (low : 0 ≤ amount)
    (small : w.stream.eod + amount + max w.stream.growsz 0 < 2 ^ 63) : Granted sys amount w := by
  have start := buffered.nonneg
  have inside := buffered.inside
  have memory := buffered.memory
  have high := buffered.high
  rcases room : makeRoom sys amount w with ⟨grown, next⟩
  rcases makeRoom_spec buffered low (by omega) room with ⟨-, enough, same, -⟩
  by_cases missing : 0 < need amount w.stream
  · have range : need amount w.stream = w.stream.eod + amount - w.stream.sz := toSigned_of_range (by omega) (by omega)
    have more := @toSize_of_range (max (need amount w.stream) w.stream.growsz) (by omega) (by omega)
    have size := @toSize_of_range (w.stream.sz + toSize (max (need amount w.stream) w.stream.growsz)) (by omega) (by omega)
    have there := makeRoom_granted grants missing (by omega)
    rw [room] at there
    change grown = true at there
    subst there
    exact ⟨next, room, enough rfl missing⟩
  · rcases same missing with ⟨rfl, rfl⟩
    have there := need_or_room buffered nonneg low (by omega)
    exact ⟨next, room, there.resolve_left missing⟩

/-- A stream of the system without errors with much room for more. -/
structure Small (s : MnByteStream) : Prop where
  buffered : Buffered s
  nonneg : 0 ≤ s.sz
  growsz : s.growsz = 8
  eod : s.eod < 2 ^ 40

theorem Small.granted {w : World Unit} (small : Small w.stream) (low : 0 ≤ amount) (few : amount < 2 ^ 40) :
    Granted deafSystem amount w := by
  apply granted_of_realloc (fun _ _ => rfl) small.buffered small.nonneg low
  have eod := small.eod
  rw [small.growsz]
  omega

theorem Small.roomier (small : Small s) (roomier : Roomier s after) : Small after := by
  refine ⟨roomier.buffered, roomier.positive small.nonneg, roomier.growsz.trans small.growsz, ?_⟩
  rw [roomier.eod]
  exact small.eod

theorem along_opening {calls : List ObjectCall}
    (rest : ∀ first : World Unit, Small first.stream → first.stream.eod = 1 →
      Along (ObjectCall.call deafSystem) (ObjectCall.Grows deafSystem) calls first) :
    Along (ObjectCall.call deafSystem) (ObjectCall.Grows deafSystem) (.cat opening :: calls) ⟨emptyStream, ()⟩ := by
  have start : Small emptyStream := ⟨emptyStream_buffered, by decide, rfl, by decide⟩
  have granted := @Small.granted 1 ⟨emptyStream, ()⟩ start (by decide) (by decide)
  rcases @call_cat _ _ ⟨emptyStream, ()⟩ opening emptyStream_buffered granted with ⟨answer, first, run, extended⟩
  have eod : first.stream.eod = 1 := extended.eod
  apply Along.of_step run granted
  exact rest first ⟨extended.buffered, extended.positive (by decide), extended.growsz, by omega⟩ eod

theorem along_closing {w : World Unit} (small : Small w.stream) :
    Along (ObjectCall.call deafSystem) (ObjectCall.Grows deafSystem) [.chopComma, .cat closing] w := by
  refine ⟨trivial, fun answer next run => ⟨?_, fun _ _ _ => trivial⟩⟩
  have small' : Small next.stream := by
    rcases chopComma_cases run with ⟨some, rfl | rfl⟩
    · exact small
    · refine ⟨(content_shorter small.buffered some).2, small.nonneg, small.growsz, ?_⟩
      have eod := small.eod
      change w.stream.eod - 1 < 2 ^ 40
      omega
  exact small'.granted (by decide) (by decide)

/-- A quotation mark and a comma. -/
theorem agrees_sample : Agrees deafSystem [(⟨[107]⟩, ⟨[34, 44]⟩)] ⟨emptyStream, ()⟩ := by
  have plain : Plain (⟨[107]⟩, ⟨[34, 44]⟩) := ⟨by simp, by simp⟩
  have short : (pairText (⟨[107]⟩, ⟨[34, 44]⟩)).length < 2 ^ 31 := by decide
  apply (agrees_iff [(⟨[107]⟩, ⟨[34, 44]⟩)] ⟨emptyStream, ()⟩ (List.forall_mem_singleton.mpr plain)
    emptyStream_buffered ?_).mpr (List.forall_mem_singleton.mpr short)
  apply along_opening
  intro first small eod
  have limit : (Writer.bytesPair true ⟨[107]⟩ ⟨[34, 44]⟩).limit = 12 := by decide
  have granted : (ObjectCall.pair ⟨[107]⟩ ⟨[34, 44]⟩).Grows deafSystem first := by
    rw [ObjectCall.Grows, limit]
    exact small.granted (by decide) (by decide)
  rcases call_pair plain short small.buffered granted with ⟨answer, second, run, extended⟩
  apply Along.of_step run granted
  apply along_closing
  refine ⟨extended.buffered, extended.positive small.nonneg, extended.growsz.trans small.growsz, ?_⟩
  rw [extended.eod, eod]
  decide

theorem escaped_replicate (n : Nat) : (List.replicate n (65 : UInt8)).flatMap escaped = List.replicate n 65 := by
  induction n with
  | zero => rfl
  | succ n ih =>
      rw [List.replicate_succ, List.flatMap_cons, ih]
      rfl

theorem long_plain (n : Nat) : Plain (⟨[107]⟩, ⟨List.replicate n 65⟩) := by
  constructor
  · simp
  · intro c inside
    rw [List.eq_of_mem_replicate inside]
    decide

theorem long_text (n : Nat) : (pairText (⟨[107]⟩, ⟨List.replicate n 65⟩)).length = n + 7 := by
  rw [pairText_eq (long_plain n), Jparse.member, escape_chars, escaped_replicate]
  simp

theorem long_limit {n : Nat} (few : n < 2 ^ 32) : (Writer.bytesPair true ⟨[107]⟩ ⟨List.replicate n 65⟩).limit = n + 9 := by
  have size : (bytesJsonEscape ⟨List.replicate n 65⟩).sz = n + 1 := by
    rw [Strz.sz_eq, escape_chars, escaped_replicate, List.length_replicate]
  have key : Strz.sz ⟨[107]⟩ = 2 := rfl
  rw [Writer.limit, size, key, toSize]
  omega

theorem along_long {n : Nat} (many : 2 ^ 31 ≤ n) (few : n < 2 ^ 32) :
    Along (ObjectCall.call deafSystem) (ObjectCall.Grows deafSystem) (objectCalls [(⟨[107]⟩, ⟨List.replicate n 65⟩)])
      ⟨emptyStream, ()⟩ := by
  apply along_opening
  intro first small eod
  have limit := long_limit few
  have granted : (ObjectCall.pair ⟨[107]⟩ ⟨List.replicate n 65⟩).Grows deafSystem first := by
    rw [ObjectCall.Grows, limit]
    exact small.granted (by omega) (by omega)
  refine ⟨granted, fun answer next run => along_closing ?_⟩
  have long : ¬ (pairText (⟨[107]⟩, ⟨List.replicate n 65⟩)).length < 2 ^ 31 := by
    rw [long_text]
    omega
  rcases call_long long granted run with ⟨middle, room, same⟩
  rw [limit] at room
  have roomier := (makeRoom_spec small.buffered (by omega) (by omega) room).1
  have small' := small.roomier roomier
  rcases same with rfl | rfl
  · exact small'
  · have some : 0 < middle.stream.eod := by
      rw [roomier.eod, eod]
      decide
    refine ⟨(content_shorter small'.buffered some).2, small'.nonneg, small'.growsz, ?_⟩
    have eod' := small'.eod
    change middle.stream.eod - 1 < 2 ^ 40
    omega

/-- A value of two gigabytes is lost, and with it the brace. -/
theorem agrees_overlong :
    ¬ ∀ (pairs : List (Strz × Strz)) (w : World Unit), (∀ pair ∈ pairs, Plain pair) → Buffered w.stream →
      Along (ObjectCall.call deafSystem) (ObjectCall.Grows deafSystem) (objectCalls pairs) w →
      Agrees deafSystem pairs w := by
  intro always
  have plain : ∀ pair ∈ [((⟨[107]⟩ : Strz), (⟨List.replicate (2 ^ 31) 65⟩ : Strz))], Plain pair :=
    List.forall_mem_singleton.mpr (long_plain (2 ^ 31))
  have grows := @along_long (2 ^ 31) (Nat.le_refl _) (by decide)
  have agrees := always _ ⟨emptyStream, ()⟩ plain emptyStream_buffered grows
  have short := short_of_agrees plain emptyStream_buffered grows agrees _ List.mem_cons_self
  rw [long_text] at short
  omega

end MnCommon.JsonWriter
