import MnCommon.JsonWriter.Writers
import MnCommon.Jparse.Pairs

/-! Objects of strings, written and read. -/

namespace MnCommon.JsonWriter

open Bytes (Strz bytesJsonEscape)
open Bytestream
open Grammars
open Jparse (JparseCtx StrPair collect kept jparseExpectObjectIter)
open Memory (Fault Along execute)

/-- The calls that write an object. -/
inductive ObjectCall where
  | cat (piece : Piece)
  | pair (key value : Strz)
  | chopComma

variable {E : Type} (sys : System E)

def ObjectCall.call : ObjectCall → World E → Except Fault (Answer E)
  | .cat piece => bytestreamCat sys piece
  | .pair key value => mnjsonBytesPair0 sys key value
  | .chopComma => mnjsonChopComma

def opening : Piece := ⟨[123], by decide⟩

def closing : Piece := ⟨[125], by decide⟩

def objectCalls (pairs : List (Strz × Strz)) : List ObjectCall :=
  .cat opening :: (pairs.map (fun pair => .pair pair.1 pair.2) ++ [.chopComma, .cat closing])

/-- The buffer can be made large enough for a call. -/
def ObjectCall.Grows : ObjectCall → World E → Prop
  | .cat piece, w => Granted sys piece.bytes.length w
  | .pair key value, w => Granted sys (Writer.bytesPair true key value).limit w
  | .chopComma, _ => True

/-- A key without NUL and without marks that would be escaped, a value without NUL. -/
structure Plain (pair : Strz × Strz) : Prop where
  key : ∀ c ∈ pair.1.chars, c ≠ 0 ∧ c ≠ 34 ∧ c ≠ 92
  value : ∀ c ∈ pair.2.chars, c ≠ 0

def pairText (pair : Strz × Strz) : List UInt8 := (Writer.bytesPair true pair.1 pair.2).text

/-- What has been appended reads back as the pairs, whatever stands behind it. -/
def Agrees (pairs : List (Strz × Strz)) (w : World E) : Prop :=
  ∃ answers final text, execute (ObjectCall.call sys) (objectCalls pairs) w = .ok (answers, final) ∧
    content final.stream = content w.stream ++ text ∧
    ∀ (ctx : JparseCtx) (left : List UInt8), ctx.Inside → ctx.unread = text ++ left →
      (jparseExpectObjectIter collect ctx []).1 = .ok ∧
        (jparseExpectObjectIter collect ctx []).2.2 = pairs.map kept

variable {sys} {w next : World E} {pair : Strz × Strz} {pairs : List (Strz × Strz)} {before : List UInt8} {c : UInt8}

theorem pairText_eq (plain : Plain pair) : pairText pair = Jparse.member pair ++ [44] := by
  have key : printedStr pair.1 = pair.1.chars := printedStr_eq fun c inside => (plain.key c inside).1
  rw [pairText, Writer.text, Writer.body, key, printed_whole plain.value]
  simp [Jparse.member, quoted, Writer.tail, Writer.comma]

theorem call_pair (plain : Plain pair) (short : (pairText pair).length < 2 ^ 31) (buffered : Buffered w.stream)
    (grows : (ObjectCall.pair pair.1 pair.2).Grows sys w) :
    ∃ answer next, (ObjectCall.pair pair.1 pair.2).call sys w = .ok (answer, next) ∧
      Extended w.stream next.stream (Jparse.member pair ++ [44]) := by
  have below := bytesPair_below true (fun c inside => (plain.key c inside).1) plain.value short
  rcases nprintf_fits buffered short below (limit_lt _) grows with ⟨next, run, extended⟩
  refine ⟨_, next, (write_eq (.bytesPair true pair.1 pair.2) w).trans run, ?_⟩
  rw [← pairText_eq plain]
  exact extended

theorem call_cat {piece : Piece} (buffered : Buffered w.stream) (grows : (ObjectCall.cat piece).Grows sys w) :
    ∃ answer next, (ObjectCall.cat piece).call sys w = .ok (answer, next) ∧
      Extended w.stream next.stream piece.bytes := by
  have short := piece.short
  have grows : Granted sys piece.bytes.length w := grows
  rcases grows.fits buffered (Int.natCast_nonneg _) (by omega) le_rfl with ⟨room, fits⟩
  rcases bytestreamCat_spec sys buffered fits with ⟨answer, next, run, effect⟩
  rcases effect with ⟨full, -⟩ | ⟨-, extended⟩
  · exact absurd (room.symm.trans full) (by decide)
  · exact ⟨answer, next, run, extended⟩

/-- The last byte of the data. -/
theorem peek_last (buffered : Buffered w.stream) (ends : content w.stream = before ++ [c]) :
    w.stream.eod = before.length + 1 ∧ peek (w.stream.eod - 1) w.stream = .ok c := by
  have nonneg := buffered.nonneg
  have inside := buffered.inside
  have eod : w.stream.eod = before.length + 1 := by
    have size := congrArg List.length ends
    rw [content, List.length_take, List.length_append, List.length_singleton] at size
    omega
  refine ⟨eod, ?_⟩
  have place : (w.stream.eod - 1).toNat = before.length := by omega
  have here : w.stream.data[before.length]? = some c := by
    have taken := congrArg (fun l => l[before.length]?) ends
    rw [List.getElem?_concat_length] at taken
    rw [← taken, content, List.getElem?_take_of_lt (by omega)]
  rw [peek, place, here]
  exact if_pos (by omega)

/-- The data without their last byte. -/
theorem content_shorter {s : MnByteStream} (buffered : Buffered s) (some : 0 < s.eod) :
    content { s with eod := s.eod - 1 } = (content s).dropLast ∧ Buffered { s with eod := s.eod - 1 } := by
  have inside := buffered.inside
  constructor
  · have size : (content s).length = s.eod.toNat := by
      rw [content, List.length_take]
      omega
    rw [List.dropLast_eq_take, size, content, content, List.take_take]
    change s.data.take (s.eod - 1).toNat = _
    congr 1
    omega
  · refine { buffered with nonneg := ?_, inside := ?_ }
    · change 0 ≤ s.eod - 1
      omega
    · change s.eod - 1 ≤ s.data.length
      omega

theorem call_chopComma (buffered : Buffered w.stream) (ends : content w.stream = before ++ [44]) :
    ∃ next, ObjectCall.chopComma.call sys w = .ok (-1, next) ∧ content next.stream = before ∧
      Buffered next.stream := by
  rcases peek_last buffered ends with ⟨eod, looked⟩
  rcases content_shorter buffered (by omega) with ⟨shorter, buffered'⟩
  refine ⟨{ w with stream := { w.stream with eod := w.stream.eod - 1 } }, ?_, ?_, buffered'⟩
  · rw [ObjectCall.call, mnjsonChopComma, looked]
    rfl
  · rw [ends, List.dropLast_concat] at shorter
    exact shorter

theorem call_noComma (buffered : Buffered w.stream) (ends : content w.stream = before ++ [c]) (other : c ≠ 44) :
    ObjectCall.chopComma.call sys w = .ok (0, w) := by
  rw [ObjectCall.call, mnjsonChopComma, (peek_last buffered ends).2]
  change (if c = 44 then _ else _) = _
  rw [if_neg other]
  rfl

/-- The pairs are appended one after the other, and the run goes on from there. -/
theorem execute_pairs {calls : List ObjectCall} (plain : ∀ pair ∈ pairs, Plain pair)
    (short : ∀ pair ∈ pairs, (pairText pair).length < 2 ^ 31) (buffered : Buffered w.stream)
    (grows : Along (ObjectCall.call sys) (ObjectCall.Grows sys)
      (pairs.map (fun pair => .pair pair.1 pair.2) ++ calls) w) :
    ∃ next, Buffered next.stream ∧ content next.stream = content w.stream ++ pairs.flatMap (Jparse.member · ++ [44]) ∧
      Along (ObjectCall.call sys) (ObjectCall.Grows sys) calls next ∧
      ∀ answers final, execute (ObjectCall.call sys) calls next = .ok (answers, final) →
        ∃ answers', execute (ObjectCall.call sys) (pairs.map (fun pair => .pair pair.1 pair.2) ++ calls) w =
          .ok (answers', final) := by
  induction pairs generalizing w with
  | nil => exact ⟨w, buffered, (List.append_nil _).symm, grows, fun answers final run => ⟨answers, run⟩⟩
  | cons pair pairs ih =>
      rcases List.forall_mem_cons.mp plain with ⟨first, plain⟩
      rcases List.forall_mem_cons.mp short with ⟨fits, short⟩
      rcases grows with ⟨here, grows⟩
      rcases call_pair first fits buffered here with ⟨answer, second, run, extended⟩
      rcases ih plain short extended.buffered (grows answer second run) with ⟨next, buffered', added, grows', rest⟩
      refine ⟨next, buffered', ?_, grows', ?_⟩
      · rw [added, extended.content, List.flatMap_cons, List.append_assoc]
      · intro answers final done
        rcases rest answers final done with ⟨answers', done'⟩
        exact ⟨answer :: answers', Memory.execute_step run done'⟩

theorem flatMap_member (some : pairs ≠ []) :
    pairs.flatMap (Jparse.member · ++ [44]) = Jparse.membersText pairs ++ [44] := by
  induction pairs with
  | nil => exact absurd rfl some
  | cons pair pairs ih =>
      by_cases last : pairs = []
      · subst last
        rw [Jparse.membersText_last]
        simp
      · rw [List.flatMap_cons, ih last, Jparse.membersText_cons pair last]
        simp

/-- The text of an object is appended. -/
theorem execute_objectCalls (plain : ∀ pair ∈ pairs, Plain pair)
    (short : ∀ pair ∈ pairs, (pairText pair).length < 2 ^ 31) (buffered : Buffered w.stream)
    (grows : Along (ObjectCall.call sys) (ObjectCall.Grows sys) (objectCalls pairs) w) :
    ∃ answers final, execute (ObjectCall.call sys) (objectCalls pairs) w = .ok (answers, final) ∧
      content final.stream = content w.stream ++ 123 :: (Jparse.membersText pairs ++ [125]) := by
  rcases grows with ⟨here, grows⟩
  rcases call_cat buffered here with ⟨answer, first, run, opened⟩
  rcases execute_pairs plain short opened.buffered (grows answer first run) with ⟨second, buffered', added, grows, rest⟩
  rw [opened.content] at added
  have chopped : ∃ answer third, ObjectCall.chopComma.call sys second = .ok (answer, third) ∧ Buffered third.stream ∧
      content third.stream = content w.stream ++ 123 :: Jparse.membersText pairs := by
    by_cases none : pairs = []
    · subst none
      have ends : content second.stream = content w.stream ++ [123] := added.trans (List.append_nil _)
      exact ⟨0, second, call_noComma buffered' ends (by decide), buffered', ends⟩
    · have ends : content second.stream = (content w.stream ++ 123 :: Jparse.membersText pairs) ++ [44] := by
        rw [added, flatMap_member none]
        simp [opening]
      rcases call_chopComma buffered' ends with ⟨third, run', same, buffered''⟩
      exact ⟨-1, third, run', buffered'', same⟩
  rcases chopped with ⟨answer', third, run', buffered'', same⟩
  have grows' := grows.2 answer' third run'
  rcases call_cat buffered'' grows'.1 with ⟨answer'', final, run'', closed⟩
  have tail : execute (ObjectCall.call sys) [.chopComma, .cat closing] second = .ok ([answer', answer''], final) :=
    Memory.execute_step run' (Memory.execute_step run'' rfl)
  rcases rest _ _ tail with ⟨answers, all⟩
  refine ⟨_, final, Memory.execute_step run all, ?_⟩
  rw [closed.content, same]
  simp [closing]

theorem agrees_of_short (plain : ∀ pair ∈ pairs, Plain pair)
    (short : ∀ pair ∈ pairs, (pairText pair).length < 2 ^ 31) (buffered : Buffered w.stream)
    (grows : Along (ObjectCall.call sys) (ObjectCall.Grows sys) (objectCalls pairs) w) : Agrees sys pairs w := by
  rcases execute_objectCalls plain short buffered grows with ⟨answers, final, run, added⟩
  refine ⟨answers, final, _, run, added, ?_⟩
  intro ctx left inside split
  have bare : ∀ pair ∈ pairs, Jparse.Bare pair.1 := fun pair among c inside => ((plain pair among).key c inside).2
  have split' : ctx.unread = 123 :: (Jparse.membersText pairs ++ 125 :: left) := by
    rw [split]
    simp
  exact Jparse.jparseExpectObjectIter_collect bare split' inside

end MnCommon.JsonWriter
