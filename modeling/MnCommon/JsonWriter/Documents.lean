import MnCommon.JsonWriter.RoundTrip
import MnCommon.JsonParser.Fidelity

/-! Documents that are written by callbacks, to any depth. -/

namespace MnCommon.JsonWriter

open Bytes (Strz bytesJsonEscape escaped escape_chars)
open Bytestream
open Grammars
open JsonParser (JsonHandlers JsonCtx JsonCb Event Quiet jsonParse jsonInit jsonCtxConsistent documentEvents)
open Jparse (JparseCtx JparseValue jparseExpectIgnore)
open Memory (Fault)

/-- The values with writers of their own. -/
inductive Leaf where
  | bytes (value : Strz)
  | stream (value : MnByteStream)
  | int (value : Int64)
  | bool (value : Bool)

/-- A value and the way in which a client writes it. A container is a callback that writes its
members or its items, with a comma behind each of them that it chops at the end, or with commas
between them only. `called` is one more callback around another. -/
inductive Sheet where
  | leaf (leaf : Leaf)
  | object (chop : Bool) (members : List (Strz × Sheet))
  | array (chop : Bool) (items : List Sheet)
  | called (sheet : Sheet)

variable {E : Type} (sys : System E)

def Leaf.writePair (comma : Bool) (key : Strz) : Leaf → WriterCb E
  | .bytes value => if comma then mnjsonBytesPair0 sys key value else mnjsonBytesPair1 sys key value
  | .stream value => if comma then mnjsonBsPair0 sys key value else mnjsonBsPair1 sys key value
  | .int value => if comma then mnjsonIntPair0 sys key value else mnjsonIntPair1 sys key value
  | .bool value => if comma then mnjsonBoolPair0 sys key value else mnjsonBoolPair1 sys key value

def Leaf.writeItem (comma : Bool) : Leaf → WriterCb E
  | .bytes value => if comma then mnjsonBytesItem0 sys value else mnjsonBytesItem1 sys value
  | .stream value => if comma then mnjsonBsItem0 sys value else mnjsonBsItem1 sys value
  | .int value => if comma then mnjsonIntItem0 sys value else mnjsonIntItem1 sys value
  | .bool value => if comma then mnjsonBoolItem0 sys value else mnjsonBoolItem1 sys value

/-- One call after the other. A client adds up what they answer. -/
def andThen (first second : WriterCb E) : WriterCb E := fun w => do
  let (res, w) ← first w
  let (more, w) ← second w
  return (res + more, w)

/-- The callback of a container. -/
def enclosed (opening closing : Piece) (chop : Bool) (inner : WriterCb E) : WriterCb E :=
  andThen (bytestreamCat sys opening)
    (andThen (if chop then andThen inner mnjsonChopComma else inner) (bytestreamCat sys closing))

def openBracket : Piece := ⟨[91], by decide⟩

def closeBracket : Piece := ⟨[93], by decide⟩

/-- A member; what is no leaf has a callback. -/
def pairOf (comma : Bool) (key : Strz) (cb : WriterCb E) : Sheet → WriterCb E
  | .leaf leaf => leaf.writePair sys comma key
  | _ => if comma then mnjsonCbPair0 sys key cb else mnjsonCbPair1 sys key cb

def itemOf (comma : Bool) (cb : WriterCb E) : Sheet → WriterCb E
  | .leaf leaf => leaf.writeItem sys comma
  | _ => if comma then mnjsonCbItem0 sys cb else mnjsonCbItem1 cb

mutual

def Sheet.write : Sheet → WriterCb E
  | .leaf leaf => leaf.writeItem sys false
  | .object chop members => enclosed sys opening closing chop (writeMembers chop members)
  | .array chop items => enclosed sys openBracket closeBracket chop (writeItems chop items)
  | .called sheet => mnjsonCbItem1 sheet.write

def writeMembers (chop : Bool) : List (Strz × Sheet) → WriterCb E
  | [] => fun w => .ok (0, w)
  | (key, sheet) :: members =>
      andThen (pairOf sys (chop || !members.isEmpty) key sheet.write sheet) (writeMembers chop members)

def writeItems (chop : Bool) : List Sheet → WriterCb E
  | [] => fun w => .ok (0, w)
  | sheet :: items => andThen (itemOf sys (chop || !items.isEmpty) sheet.write sheet) (writeItems chop items)

end

/-- The writer of a string for a stream is that for its bytes. -/
def Leaf.pair (comma : Bool) (key : Strz) : Leaf → Writer
  | .bytes value => .bytesPair comma key value
  | .stream value => .bytesPair comma key (streamStrz value)
  | .int value => .intPair comma key value
  | .bool value => .boolPair comma key value

def Leaf.item (comma : Bool) : Leaf → Writer
  | .bytes value => .bytesItem comma value
  | .stream value => .bytesItem comma (streamStrz value)
  | .int value => .intItem comma value
  | .bool value => .boolItem comma value

def Leaf.meaning : Leaf → Meaning
  | .bytes value => .string value.chars
  | .stream value => .string (streamStrz value).chars
  | .int value => .integer value.toInt
  | .bool value => .boolean value

mutual

/-- The document has the values of the client. -/
def Sheet.Denotes : Sheet → Json → Prop
  | .leaf leaf, v => v.Means leaf.meaning
  | .object _ members, .object vs => membersDenote members vs
  | .array _ items, .array vs comma => itemsDenote items vs ∧ comma = false
  | .called sheet, v => sheet.Denotes v
  | _, _ => False

def membersDenote : List (Strz × Sheet) → List (List UInt8 × Json) → Prop
  | [], [] => True
  | (key, sheet) :: members, (body, v) :: vs => Spells body key.chars ∧ sheet.Denotes v ∧ membersDenote members vs
  | _, _ => False

def itemsDenote : List Sheet → List Json → Prop
  | [], [] => True
  | sheet :: items, v :: vs => sheet.Denotes v ∧ itemsDenote items vs
  | _, _ => False

end

def commaIf (comma : Bool) : List UInt8 := if comma then [44] else []

mutual

def Sheet.text : Sheet → List UInt8
  | .leaf leaf => (leaf.item false).body
  | .object _ members => 123 :: (membersText false members ++ [125])
  | .array _ items => 91 :: (itemsText false items ++ [93])
  | .called sheet => sheet.text

/-- With a comma behind the last member or without one. -/
def membersText (chop : Bool) : List (Strz × Sheet) → List UInt8
  | [] => []
  | (key, sheet) :: members =>
      quoted key.chars ++ 58 :: (sheet.text ++ (commaIf (chop || !members.isEmpty) ++ membersText chop members))

def itemsText (chop : Bool) : List Sheet → List UInt8
  | [] => []
  | sheet :: items => sheet.text ++ (commaIf (chop || !items.isEmpty) ++ itemsText chop items)

end

/-- A leaf is written as it should be, and the quoted key of a callback is short enough. -/
def pairRight (comma : Bool) (key : Strz) : Sheet → Prop
  | .leaf leaf => (leaf.pair comma key).Right
  | _ => key.chars.length + 3 < 2 ^ 31

def itemRight (comma : Bool) : Sheet → Prop
  | .leaf leaf => (leaf.item comma).Right
  | _ => True

mutual

/-- The sheets that are written as they should be. -/
def Sheet.Right : Sheet → Prop
  | .leaf leaf => (leaf.item false).Right
  | .object chop members => membersRight chop members
  | .array chop items => itemsRight chop items
  | .called sheet => sheet.Right

def membersRight (chop : Bool) : List (Strz × Sheet) → Prop
  | [] => True
  | (key, sheet) :: members =>
      PlainKey key ∧ pairRight (chop || !members.isEmpty) key sheet ∧ sheet.Right ∧ membersRight chop members

def itemsRight (chop : Bool) : List Sheet → Prop
  | [] => True
  | sheet :: items => itemRight (chop || !items.isEmpty) sheet ∧ sheet.Right ∧ itemsRight chop items

end

/-- All memory that is asked for is there. -/
def Generous : Prop := ∀ size env, (sys.realloc size env).1 = true

/-- So many more bytes can be asked for. -/
structure Ample (n : Nat) (s : MnByteStream) : Prop where
  buffered : Buffered s
  nonneg : 0 ≤ s.sz
  room : s.eod + n + max s.growsz 0 < 2 ^ 63

/-- The call appends the bytes and answers how many these are. -/
def Appends (call : WriterCb E) (bytes : List UInt8) (w : World E) : Prop :=
  ∃ next, call w = .ok ((bytes.length : Int), next) ∧ Extended w.stream next.stream bytes

variable {sys} {w : World E} {s after : MnByteStream} {m n size : Nat} {amount : Int} {op : Writer} {leaf : Leaf}
  {bytes more chars : List UInt8} {first second inner : WriterCb E} {key : Strz} {comma chop : Bool}

theorem Ample.mono (ample : Ample n s) (less : m ≤ n) : Ample m s := by
  refine ⟨ample.buffered, ample.nonneg, ?_⟩
  have room := ample.room
  omega

theorem Ample.extended (ample : Ample (bytes.length + n) s) (extended : Extended s after bytes) : Ample n after := by
  refine ⟨extended.buffered, extended.positive ample.nonneg, ?_⟩
  have room := ample.room
  rw [extended.eod, extended.growsz]
  omega

theorem Ample.granted (ample : Ample n w.stream) (generous : Generous sys) (low : 0 ≤ amount) (few : amount ≤ n) :
    Granted sys amount w := by
  apply granted_of_realloc generous ample.buffered ample.nonneg low
  have room := ample.room
  omega

theorem Appends.andThen (here : Appends first bytes w)
    (next : ∀ w', Extended w.stream w'.stream bytes → Appends second more w') :
    Appends (andThen first second) (bytes ++ more) w := by
  rcases here with ⟨w', run, extended⟩
  rcases next w' extended with ⟨w'', run', extended'⟩
  refine ⟨w'', ?_, extended.trans extended'⟩
  rw [JsonWriter.andThen, run, List.length_append, Nat.cast_add]
  change (second w' >>= fun r => pure ((bytes.length : Int) + r.1, r.2)) = _
  rw [run']
  rfl

theorem appends_nil (buffered : Buffered w.stream) : Appends (fun w => .ok (0, w)) [] w :=
  ⟨w, rfl, by simp, rfl, rfl, (List.append_nil _).symm, buffered, id⟩

theorem nprintf_appends (generous : Generous sys) (ample : Ample n w.stream) (short : chars.length < 2 ^ 31)
    (below : chars.length < toSigned size) (high : size < 2 ^ 64) (few : size ≤ n) :
    Appends (bytestreamNprintf sys size (formatted chars)) chars w := by
  have granted : Granted sys size w := ample.granted generous (Int.natCast_nonneg _) (by exact_mod_cast few)
  exact nprintf_fits ample.buffered short below high granted

/-- The number of bytes that are copied. -/
theorem cat_answer {piece : Piece} {answer : Int} {next : World E} (room : (makeRoom sys piece.bytes.length w).1 = true)
    (run : bytestreamCat sys piece w = .ok (answer, next)) : answer = Int.bmod piece.bytes.length (2 ^ 32) := by
  rcases made : makeRoom sys piece.bytes.length w with ⟨grown, middle⟩
  rw [made] at room
  change grown = true at room
  subst room
  rw [bytestreamCat, made] at run
  dsimp only at run
  cases poked : poke middle.stream.eod piece.bytes middle with
  | error fault =>
      rw [poked] at run
      cases run
  | ok last =>
      rw [poked] at run
      change Except.ok _ = _ at run
      exact (Prod.mk.inj (Except.ok.inj run)).1.symm

theorem cat_appends (generous : Generous sys) (piece : Piece) (small : piece.bytes.length < 2 ^ 31)
    (ample : Ample n w.stream) (few : piece.bytes.length ≤ n) : Appends (bytestreamCat sys piece) piece.bytes w := by
  have granted : Granted sys piece.bytes.length w :=
    ample.granted generous (Int.natCast_nonneg _) (by exact_mod_cast few)
  rcases granted.fits ample.buffered (Int.natCast_nonneg _) (by omega) le_rfl with ⟨room, fits⟩
  rcases bytestreamCat_spec sys ample.buffered fits with ⟨answer, next, run, effect⟩
  rcases effect with ⟨full, -⟩ | ⟨-, extended⟩
  · exact absurd (room.symm.trans full) (by decide)
  · have told : answer = (piece.bytes.length : Int) := by
      rw [cat_answer room run]
      exact Int.bmod_eq_of_le (by omega) (by omega)
    rw [told] at run
    exact ⟨next, run, extended⟩

theorem toSize_le {n : Int} (low : 0 ≤ n) : (toSize n : Int) ≤ n := by
  rw [toSize]
  omega

/-- No limit is much larger than the text. -/
theorem limit_le (plain : ∀ key, op.key = some key → PlainKey key) (right : op.Right) :
    op.limit ≤ op.text.length + 64 := by
  cases op with
  | bytesPair comma key value =>
      have clean : ∀ c ∈ value.chars, c ≠ 0 := fun c inside => (right.1 c inside).nonzero
      have few := @toSize_le (key.sz - 1 + 8 + (bytesJsonEscape value).sz - 1) (by rw [Strz.sz_eq, Strz.sz_eq]; omega)
      rw [Strz.sz_eq, Strz.sz_eq] at few
      rw [Writer.limit, Writer.text, Writer.body, printed_whole clean, (plain key rfl).printed, Strz.sz_eq, Strz.sz_eq]
      simp only [List.length_append, List.length_cons, length_quoted]
      omega
  | bytesItem comma value =>
      have clean : ∀ c ∈ value.chars, c ≠ 0 := fun c inside => (right.1 c inside).nonzero
      have few := @toSize_le (4 + (bytesJsonEscape value).sz - 1) (by rw [Strz.sz_eq]; omega)
      rw [Strz.sz_eq] at few
      rw [Writer.limit, Writer.text, Writer.body, printed_whole clean, Strz.sz_eq]
      simp only [List.length_append, length_quoted]
      omega
  | intPair comma key value =>
      have few := @toSize_le (key.sz - 1 + 64) (by rw [Strz.sz_eq]; omega)
      rw [Strz.sz_eq] at few
      rw [Writer.limit, Writer.text, Writer.body, (plain key rfl).printed, Strz.sz_eq]
      simp only [List.length_append, List.length_cons, length_quoted]
      omega
  | boolPair comma key value =>
      have few := @toSize_le (key.sz - 1 + 8) (by rw [Strz.sz_eq]; omega)
      rw [Strz.sz_eq] at few
      rw [Writer.limit, Writer.text, Writer.body, (plain key rfl).printed, Strz.sz_eq]
      simp only [List.length_append, List.length_cons, length_quoted]
      omega
  | intItem comma value | boolItem comma value =>
      simp only [Writer.limit]
      omega

theorem writer_appends (generous : Generous sys) (plain : ∀ key, op.key = some key → PlainKey key) (right : op.Right)
    (ample : Ample (op.text.length + n) w.stream) (slack : 64 ≤ n) : Appends (op.write sys) op.text w := by
  have few := limit_le plain right
  rcases (right_iff_denotes plain).mpr right with ⟨-, short, below⟩
  rcases nprintf_appends generous ample short below (limit_lt op) (by omega) with ⟨next, run, extended⟩
  exact ⟨next, (write_eq op w).trans run, extended⟩

theorem Leaf.writePair_eq (leaf : Leaf) (comma : Bool) (key : Strz) :
    leaf.writePair sys comma key = (leaf.pair comma key).write sys := by
  cases leaf <;> cases comma <;> rfl

theorem Leaf.writeItem_eq (leaf : Leaf) (comma : Bool) : leaf.writeItem sys comma = (leaf.item comma).write sys := by
  cases leaf <;> cases comma <;> rfl

theorem Leaf.item_text (leaf : Leaf) (comma : Bool) :
    (leaf.item comma).text = (leaf.item false).body ++ commaIf comma := by
  cases leaf <;> rfl

/-- A pair that is written as it should be has the text of the item. -/
theorem Leaf.pair_text (plain : PlainKey key) (right : (leaf.pair comma key).Right) :
    (leaf.pair comma key).text = quoted key.chars ++ 58 :: ((leaf.item false).body ++ commaIf comma) := by
  cases leaf with
  | bool value =>
      rcases right with ⟨rfl, rfl, -⟩
      simp [Leaf.pair, Leaf.item, Writer.text, Writer.body, plain.printed, Writer.tail, Writer.comma, commaIf]
  | _ =>
      cases comma <;>
        simp [Leaf.pair, Leaf.item, Writer.text, Writer.body, plain.printed, Writer.tail, Writer.comma, commaIf]

theorem Leaf.pair_key (leaf : Leaf) (comma : Bool) {key key' : Strz} (same : (leaf.pair comma key).key = some key') :
    key = key' := by
  cases leaf <;> exact Option.some.inj same

theorem Leaf.item_key (leaf : Leaf) (comma : Bool) : (leaf.item comma).key = none := by
  cases leaf <;> rfl

/-- A call and a comma behind it. -/
theorem catComma_appends (generous : Generous sys) (here : Appends first bytes w)
    (ample : Ample (bytes.length + n) w.stream) (some : 1 ≤ n) :
    Appends (andThen first (bytestreamCat sys ⟨[44], by decide⟩)) (bytes ++ [44]) w :=
  here.andThen fun _ extended => cat_appends generous ⟨[44], by decide⟩ (by simp) (ample.extended extended) some

theorem key_appends (generous : Generous sys) (plain : PlainKey key) (short : key.chars.length + 3 < 2 ^ 31)
    (ample : Ample ((quoted key.chars ++ [58]).length + n) w.stream) (slack : 64 ≤ n) :
    Appends (bytestreamNprintf sys (toSize (key.sz - 1 + 8)) (formatted (quoted (printedStr key) ++ [58])))
      (quoted key.chars ++ [58]) w := by
  have few := @toSize_le (key.sz - 1 + 8) (by rw [Strz.sz_eq]; omega)
  have below := @toSigned_limit (key.sz - 1 + 8) (by rw [Strz.sz_eq]; omega) (by rw [Strz.sz_eq]; omega)
  have length : (quoted key.chars ++ [58]).length = key.chars.length + 3 := by
    rw [List.length_append, length_quoted, List.length_singleton]
  rw [Strz.sz_eq] at few below ⊢
  rw [plain.printed]
  apply nprintf_appends generous ample
  · rw [length]
    exact short
  · rw [below, length]
    omega
  · exact toSize_lt _
  · omega

theorem cbPair_appends {cb : WriterCb E} (generous : Generous sys) (plain : PlainKey key)
    (short : key.chars.length + 3 < 2 ^ 31)
    (ample : Ample ((quoted key.chars ++ 58 :: (bytes ++ commaIf comma)).length + n) w.stream) (slack : 64 ≤ n)
    (called : ∀ w', Ample (bytes.length + n) w'.stream → Appends cb bytes w') :
    Appends (if comma then mnjsonCbPair0 sys key cb else mnjsonCbPair1 sys key cb)
      (quoted key.chars ++ 58 :: (bytes ++ commaIf comma)) w := by
  have parts : quoted key.chars ++ 58 :: (bytes ++ commaIf comma) =
      (quoted key.chars ++ [58]) ++ (bytes ++ commaIf comma) := by simp
  rw [parts, List.length_append, @List.length_append _ bytes] at ample
  have named := key_appends generous plain short (ample.mono (m := (quoted key.chars ++ [58]).length + n) (by omega)) slack
  have body : Appends (mnjsonCbPairBody sys key cb) ((quoted key.chars ++ [58]) ++ bytes) w := by
    apply named.andThen
    intro w' extended
    apply called
    apply Ample.extended (ample.mono _) extended
    omega
  cases comma with
  | false =>
      change Appends (mnjsonCbPairBody sys key cb) _ w
      rw [parts, commaIf, if_neg Bool.false_ne_true, List.append_nil]
      exact body
  | true =>
      change Appends (andThen (mnjsonCbPairBody sys key cb) (bytestreamCat sys ⟨[44], by decide⟩)) _ w
      rw [parts, commaIf, if_pos rfl, ← List.append_assoc]
      apply catComma_appends generous body (n := n) _ (by omega)
      apply ample.mono
      rw [List.length_append]
      omega

theorem cbItem_appends {cb : WriterCb E} (generous : Generous sys)
    (ample : Ample ((bytes ++ commaIf comma).length + n) w.stream) (slack : 64 ≤ n)
    (called : ∀ w', Ample (bytes.length + n) w'.stream → Appends cb bytes w') :
    Appends (if comma then mnjsonCbItem0 sys cb else mnjsonCbItem1 cb) (bytes ++ commaIf comma) w := by
  rw [List.length_append] at ample
  have enough : Ample (bytes.length + n) w.stream := ample.mono (by omega)
  cases comma with
  | false =>
      change Appends cb _ w
      rw [commaIf, if_neg Bool.false_ne_true, List.append_nil]
      exact called w enough
  | true =>
      change Appends (andThen cb (bytestreamCat sys ⟨[44], by decide⟩)) _ w
      exact catComma_appends generous (called w enough) enough (by omega)

/-- A member, with its comma. -/
theorem pairOf_appends (generous : Generous sys) (sheet : Sheet) (cb : WriterCb E) (plain : PlainKey key)
    (right : pairRight comma key sheet)
    (ample : Ample ((quoted key.chars ++ 58 :: (sheet.text ++ commaIf comma)).length + n) w.stream) (slack : 64 ≤ n)
    (called : ∀ w', Ample (sheet.text.length + n) w'.stream → Appends cb sheet.text w') :
    Appends (pairOf sys comma key cb sheet) (quoted key.chars ++ 58 :: (sheet.text ++ commaIf comma)) w := by
  cases sheet with
  | leaf leaf =>
      have same := leaf.pair_text plain right
      rw [pairOf, Leaf.writePair_eq]
      rw [Sheet.text, ← same] at ample ⊢
      refine writer_appends generous ?_ right ample slack
      intro key' same'
      rw [← leaf.pair_key comma same']
      exact plain
  | object _ _ | array _ _ | called _ => exact cbPair_appends generous plain right ample slack called

theorem itemOf_appends (generous : Generous sys) (sheet : Sheet) (cb : WriterCb E) (right : itemRight comma sheet)
    (ample : Ample ((sheet.text ++ commaIf comma).length + n) w.stream) (slack : 64 ≤ n)
    (called : ∀ w', Ample (sheet.text.length + n) w'.stream → Appends cb sheet.text w') :
    Appends (itemOf sys comma cb sheet) (sheet.text ++ commaIf comma) w := by
  cases sheet with
  | leaf leaf =>
      rw [itemOf, Leaf.writeItem_eq]
      rw [Sheet.text, ← leaf.item_text comma] at ample ⊢
      refine writer_appends generous ?_ right ample slack
      intro key' same'
      cases (leaf.item_key comma).symm.trans same'
  | object _ _ | array _ _ | called _ => exact cbItem_appends generous ample slack called

theorem membersText_chop (members : List (Strz × Sheet)) :
    membersText true members = membersText false members ++ commaIf (!members.isEmpty) := by
  induction members with
  | nil => rfl
  | cons member members ih =>
      cases members with
      | nil => simp [membersText, commaIf]
      | cons next members =>
          rw [membersText, ih]
          simp [membersText, commaIf]

theorem itemsText_chop (items : List Sheet) : itemsText true items = itemsText false items ++ commaIf (!items.isEmpty) := by
  induction items with
  | nil => rfl
  | cons item items ih =>
      cases items with
      | nil => simp [itemsText, commaIf]
      | cons next items =>
          rw [itemsText, ih]
          simp [itemsText, commaIf]

/-- The comma at the end is taken away, and the answer is one less. -/
theorem chop_appends (here : Appends inner (bytes ++ [44]) w) : Appends (andThen inner mnjsonChopComma) bytes w := by
  rcases here with ⟨next, run, extended⟩
  have ends : content next.stream = (content w.stream ++ bytes) ++ [44] := by
    rw [extended.content, List.append_assoc]
  rcases peek_last extended.buffered ends with ⟨eod, looked⟩
  rcases content_shorter extended.buffered (by omega) with ⟨shorter, buffered⟩
  rw [ends, List.dropLast_concat] at shorter
  refine ⟨{ next with stream := { next.stream with eod := next.stream.eod - 1 } }, ?_, ?_, extended.pos,
    extended.growsz, shorter, buffered, extended.positive⟩
  · rw [andThen, run]
    change (mnjsonChopComma next >>= fun r => pure (((bytes ++ [44]).length : Int) + r.1, r.2)) = _
    rw [mnjsonChopComma, looked, List.length_append, List.length_singleton, Nat.cast_add]
    change Except.ok ((bytes.length : Int) + 1 + -1, _) = _
    rw [Int.add_neg_cancel_right]
  · have told := extended.eod
    rw [List.length_append, List.length_singleton, Nat.cast_add] at told
    change next.stream.eod - 1 = _
    omega

/-- Nothing has been written behind another character. -/
theorem nothing_to_chop (sys : System E) {before : List UInt8} {c : UInt8} (here : Appends inner [] w)
    (ends : content w.stream = before ++ [c]) (other : c ≠ 44) : Appends (andThen inner mnjsonChopComma) [] w := by
  rcases here with ⟨next, run, extended⟩
  have ends' : content next.stream = before ++ [c] := by rw [extended.content, List.append_nil, ends]
  refine ⟨next, ?_, extended⟩
  have called : mnjsonChopComma next = .ok (0, next) :=
    @call_noComma _ sys next before c extended.buffered ends' other
  rw [andThen, run]
  change (mnjsonChopComma next >>= fun r => pure (0 + r.1, r.2)) = _
  rw [called]
  rfl

/-- What is written inside of the brackets, with its last comma. -/
structure Inner (chop : Bool) (written bytes : List UInt8) : Prop where
  commas : (chop = false ∧ written = bytes) ∨ (chop = true ∧ (written = bytes ++ [44] ∨ written = [] ∧ bytes = []))

theorem inner_of_text {some : Bool} (text : Bool → List UInt8) (same : text true = text false ++ commaIf some)
    (none : some = false → text false = []) (chop : Bool) : Inner chop (text chop) (text false) := by
  constructor
  cases chop with
  | false => exact .inl ⟨rfl, rfl⟩
  | true =>
      cases some with
      | true => exact .inr ⟨rfl, .inl same⟩
      | false =>
          rw [commaIf, if_neg Bool.false_ne_true, List.append_nil] at same
          exact .inr ⟨rfl, .inr ⟨same.trans (none rfl), none rfl⟩⟩

theorem enclosed_appends {o c : UInt8} {written : List UInt8} (generous : Generous sys) (other : o ≠ 44)
    (commas : Inner chop written bytes) (ample : Ample ((o :: (bytes ++ [c])).length + n) w.stream) (slack : 64 ≤ n)
    (called : ∀ w', Ample (written.length + n) w'.stream → Appends inner written w') :
    Appends (enclosed sys ⟨[o], by simp⟩ ⟨[c], by simp⟩ chop inner) (o :: (bytes ++ [c])) w := by
  have few : (o :: (bytes ++ [c])).length = 1 + (bytes.length + 1) := by
    rw [List.length_cons, List.length_append, List.length_singleton]
    omega
  rw [few] at ample
  have opened : Appends (bytestreamCat sys ⟨[o], by simp⟩) [o] w := cat_appends generous ⟨[o], by simp⟩ (by simp) ample
    (by simp; omega)
  change Appends (enclosed sys ⟨[o], by simp⟩ ⟨[c], by simp⟩ chop inner) ([o] ++ (bytes ++ [c])) w
  apply opened.andThen
  intro w₁ first
  have ample₁ : Ample (bytes.length + (1 + n)) w₁.stream := by
    apply Ample.extended (ample.mono _) first
    rw [List.length_singleton]
    omega
  have chopped : Appends (if chop then andThen inner mnjsonChopComma else inner) bytes w₁ := by
    rcases commas.commas with ⟨rfl, rfl⟩ | ⟨rfl, rfl | ⟨rfl, rfl⟩⟩
    · rw [if_neg Bool.false_ne_true]
      exact called w₁ (ample₁.mono (by omega))
    · rw [if_pos rfl]
      apply chop_appends (called w₁ (ample₁.mono _))
      rw [List.length_append, List.length_singleton]
      omega
    · rw [if_pos rfl]
      exact nothing_to_chop sys (called w₁ (ample₁.mono (by omega))) first.content other
  exact chopped.andThen fun w₂ second =>
    cat_appends generous ⟨[c], by simp⟩ (by simp) (ample₁.extended second) (by simp)

mutual

/-- A sheet is written as its text, and the answers add up to the length of this. -/
theorem write_appends (generous : Generous sys) (slack : 64 ≤ n) (sheet : Sheet) (right : sheet.Right) (w : World E)
    (ample : Ample (sheet.text.length + n) w.stream) : Appends (sheet.write sys) sheet.text w := by
  cases sheet with
  | leaf leaf =>
      have item : Ample ((leaf.item false).text.length + n) w.stream := by
        rw [leaf.item_text, commaIf, if_neg Bool.false_ne_true, List.append_nil]
        exact ample
      have written := writer_appends generous (by simp [leaf.item_key]) right item slack
      rw [leaf.item_text, commaIf, if_neg Bool.false_ne_true, List.append_nil] at written
      rw [Sheet.write, Leaf.writeItem_eq, Sheet.text]
      exact written
  | object chop members =>
      have commas := inner_of_text (fun chop => membersText chop members) (membersText_chop members)
        (by cases members <;> simp [membersText]) chop
      exact enclosed_appends generous (by decide) commas ample slack fun w' =>
        writeMembers_appends generous slack chop members right w'
  | array chop items =>
      have commas := inner_of_text (fun chop => itemsText chop items) (itemsText_chop items)
        (by cases items <;> simp [itemsText]) chop
      exact enclosed_appends generous (by decide) commas ample slack fun w' =>
        writeItems_appends generous slack chop items right w'
  | called sheet => exact write_appends generous slack sheet right w ample

theorem writeMembers_appends (generous : Generous sys) (slack : 64 ≤ n) (chop : Bool) (members : List (Strz × Sheet))
    (right : membersRight chop members) (w : World E) (ample : Ample ((membersText chop members).length + n) w.stream) :
    Appends (writeMembers sys chop members) (membersText chop members) w := by
  cases members with
  | nil => exact appends_nil ample.buffered
  | cons member members =>
      rcases member with ⟨key, sheet⟩
      rcases right with ⟨plain, here, inside, others⟩
      have parts : membersText chop ((key, sheet) :: members) =
          (quoted key.chars ++ 58 :: (sheet.text ++ commaIf (chop || !members.isEmpty))) ++ membersText chop members := by
        simp [membersText]
      rw [parts, List.length_append] at ample
      rw [parts, writeMembers]
      have first := pairOf_appends generous sheet (sheet.write sys) plain here (ample.mono (by omega)) slack fun w' =>
        write_appends generous slack sheet inside w'
      apply first.andThen
      intro w' extended
      apply writeMembers_appends generous slack chop members others w'
      apply Ample.extended (ample.mono _) extended
      omega

theorem writeItems_appends (generous : Generous sys) (slack : 64 ≤ n) (chop : Bool) (items : List Sheet)
    (right : itemsRight chop items) (w : World E) (ample : Ample ((itemsText chop items).length + n) w.stream) :
    Appends (writeItems sys chop items) (itemsText chop items) w := by
  cases items with
  | nil => exact appends_nil ample.buffered
  | cons sheet items =>
      rcases right with ⟨here, inside, others⟩
      have parts : itemsText chop (sheet :: items) =
          (sheet.text ++ commaIf (chop || !items.isEmpty)) ++ itemsText chop items := by
        simp [itemsText]
      rw [parts, List.length_append] at ample
      rw [parts, writeItems]
      have first := itemOf_appends generous sheet (sheet.write sys) here (ample.mono (by omega)) slack fun w' =>
        write_appends generous slack sheet inside w'
      apply first.andThen
      intro w' extended
      apply writeItems_appends generous slack chop items others w'
      apply Ample.extended (ample.mono _) extended
      omega

end

theorem no_plus_of_integer {i : Int} (integer : Integer chars i) : 43 ∉ chars := by
  rcases integer with ⟨ds, int, shape⟩
  have digits : 43 ∉ ds := by
    intro wrong
    rcases int with rfl | ⟨digits, -⟩
    · simp at wrong
    · exact absurd (digits.2 43 wrong) (by decide)
  rcases shape with ⟨rfl, -⟩ | ⟨rfl, -⟩
  · exact digits
  · simp [digits]

theorem leaf_derives (leaf : Leaf) (right : (leaf.item false).Right) :
    ∃ v, Derives JsonParser.plain (.value v) (leaf.item false).body ∧ v.Means leaf.meaning := by
  have element : Element leaf.meaning (leaf.item false).body := by
    have denotes := ((right_iff_denotes (by simp [leaf.item_key])).mpr right).1
    cases leaf <;> exact denotes
  rcases element with ⟨v, derived, means⟩
  refine ⟨v, ?_, means⟩
  generalize (leaf.item false).body = text at derived ⊢
  cases v with
  | string body =>
      cases derived with
      | string allowed => exact .string allowed
  | token chars =>
      cases derived with
      | token allowed => exact .token allowed
  | number chars =>
      cases derived with
      | number allowed =>
          refine .number ⟨allowed, ?_⟩
          cases leaf with
          | int value => exact no_plus_of_integer means
          | _ => exact means.elim
  | object _ | array _ _ => cases leaf <;> exact means.elim

mutual

/-- The text of a sheet is a JSON text of a document that has the values. -/
theorem sheet_derives (sheet : Sheet) (right : sheet.Right) :
    ∃ v, Derives JsonParser.plain (.value v) sheet.text ∧ sheet.Denotes v := by
  have none : JsonParser.plain.Spaces [] := JsonParser.plain.spaces_nil
  cases sheet with
  | leaf leaf =>
      rcases leaf_derives leaf right with ⟨v, derived, means⟩
      exact ⟨v, derived, means⟩
  | object chop members =>
      by_cases empty : members = []
      · subst empty
        exact ⟨.object [], .emptyObject none, trivial⟩
      · rcases members_derive chop members right empty with ⟨vs, derived, denotes⟩
        have whole := Derives.object none derived
        exact ⟨.object vs, whole, denotes⟩
  | array chop items =>
      by_cases empty : items = []
      · subst empty
        exact ⟨.array [] false, .emptyArray none, trivial, rfl⟩
      · rcases items_derive chop items right empty with ⟨vs, derived, denotes⟩
        have whole := Derives.array none derived
        exact ⟨.array vs false, whole, denotes, rfl⟩
  | called sheet => exact sheet_derives sheet right

theorem members_derive (chop : Bool) (members : List (Strz × Sheet)) (right : membersRight chop members)
    (some : members ≠ []) :
    ∃ vs, Derives JsonParser.plain (.members vs) (membersText false members ++ [125]) ∧ membersDenote members vs := by
  have none : JsonParser.plain.Spaces [] := JsonParser.plain.spaces_nil
  cases members with
  | nil => exact absurd rfl some
  | cons member members =>
      rcases member with ⟨key, sheet⟩
      rcases right with ⟨plainly, -, inside, others⟩
      rcases sheet_derives sheet inside with ⟨v, derived, denotes⟩
      have allowed : JsonParser.plain.allows (.string key.chars) := plainly.spells.chars
      by_cases last : members = []
      · subst last
        have derived := Derives.lastMember allowed none none derived none
        refine ⟨[(key.chars, v)], ?_, plainly.spells, denotes, trivial⟩
        simpa [membersText, commaIf, quoted] using derived
      · rcases members_derive chop members others last with ⟨vs, more, rest⟩
        have derived := Derives.member allowed none none derived none none more
        refine ⟨(key.chars, v) :: vs, ?_, plainly.spells, denotes, rest⟩
        simpa [membersText, commaIf, quoted, last] using derived

theorem items_derive (chop : Bool) (items : List Sheet) (right : itemsRight chop items) (some : items ≠ []) :
    ∃ vs, Derives JsonParser.plain (.items vs false) (itemsText false items ++ [93]) ∧ itemsDenote items vs := by
  have none : JsonParser.plain.Spaces [] := JsonParser.plain.spaces_nil
  cases items with
  | nil => exact absurd rfl some
  | cons sheet items =>
      rcases right with ⟨-, inside, others⟩
      rcases sheet_derives sheet inside with ⟨v, derived, denotes⟩
      by_cases last : items = []
      · subst last
        have derived := Derives.lastItem derived none
        refine ⟨[v], ?_, denotes, trivial⟩
        simpa [itemsText, commaIf] using derived
      · rcases items_derive chop items others last with ⟨vs, more, rest⟩
        have derived := Derives.item derived none none more
        refine ⟨v :: vs, ?_, denotes, rest⟩
        simpa [itemsText, commaIf, last] using derived

end

/-- An object or an array, at the bottom of its callbacks. -/
def Sheet.Container : Sheet → Prop
  | .leaf _ => False
  | .called sheet => sheet.Container
  | _ => True

theorem denoted_container {v : Json} (sheet : Sheet) (container : sheet.Container) (denotes : sheet.Denotes v) :
    v.Container := by
  cases sheet with
  | leaf _ => exact container.elim
  | called sheet => exact denoted_container sheet container denotes
  | object _ _ | array _ _ =>
      cases v with
      | object _ | array _ _ => trivial
      | _ => exact denotes.elim

theorem plain_derived {p : Phrase} {seg : List UInt8} (derived : Derives JsonParser.plain p seg) : Derives rfc7159 p seg :=
  derived.change (fun _ _ space => JsonParser.loose_space _ space) fun x inside =>
    JsonParser.plain_rfc7159 (derived.allows x inside)

/-- The text of a container is read by both parsers: one makes the calls of the document, the other
one stops behind the last bracket. -/
structure ReadBack (v : Json) (text : List UInt8) : Prop where
  parsed {U A : Type} {handlers : JsonHandlers U A} (quiet : Quiet handlers) (junk : JsonCtx U (A × List Event))
    (cb : Option (JsonCb U (A × List Event))) (udata : U) :
    ∃ ctx', jsonParse handlers.watched text (jsonInit junk cb udata).1 = .ok ctx' ∧ jsonCtxConsistent ctx' = 0 ∧
      ctx'.world.2 = junk.world.2 ++ documentEvents v
  ignored (ctx : JparseCtx) (jval : JparseValue) (left : List UInt8) (inside : ctx.Inside)
    (unread : ctx.unread = text ++ left) :
    (jparseExpectIgnore ctx jval).1 = .ok ∧ (jparseExpectIgnore ctx jval).2.1.pos = ctx.pos + text.length

theorem readBack_of_derives {v : Json} {text : List UInt8} (container : v.Container)
    (derived : Derives JsonParser.plain (.value v) text) : ReadBack v text where
  parsed quiet junk cb udata := by
    have none : JsonParser.plain.Spaces [] := JsonParser.plain.spaces_nil
    have loosely : Derives JsonParser.loose (.value v) text :=
      derived.change (fun _ _ space => space) fun x inside => JsonParser.plain_loose (derived.allows x inside)
    have reading := JsonParser.reading_of_spaces JsonParser.loose_space container loosely none none
    have parsed := @JsonParser.jsonParse_reading _ _ _ _ (jsonInit junk cb udata).1 _ _ _ _ (quiet.watched junk.world.2)
      reading rfl rfl rfl rfl (List.append_nil _).symm
    simpa using parsed
  ignored ctx jval left inside unread := by
    have ended : Jparse.EndsAt v left := by
      cases v with
      | object _ | array _ _ => trivial
      | _ => exact container.elim
    have none : rfc7159.Spaces [] := rfc7159.spaces_nil
    rcases Jparse.loose_accepted (Jparse.loosened (plain_derived derived)) (ctx.ahead + 1) ctx jval [] left inside unread
      none ended (Jparse.unread_lt ctx) with ⟨done, passes⟩
    exact ⟨done, passes.pos⟩

/-- `{"k":[false,7,"\""]}`, the boolean from a callback of its own. -/
def sampleSheet : Sheet :=
  .object true [(⟨[107]⟩, .array false [.called (.leaf (.bool false)), .leaf (.int 7), .leaf (.bytes ⟨[34]⟩)])]

theorem sampleSheet_right : sampleSheet.Right := by
  refine ⟨?_, by simp [pairRight], ⟨?_, ?_, ?_, ?_, ?_, ?_, trivial⟩, trivial⟩
  · simp [PlainKey]
  all_goals simp [itemRight, Leaf.item, Writer.Right, Sheet.Right, Escapable]
  all_goals decide

theorem sampleSheet_ample : Ample (sampleSheet.text.length + 64) emptyStream := by
  refine ⟨emptyStream_buffered, by decide, ?_⟩
  have length : sampleSheet.text.length = 20 := by decide
  rw [length]
  decide

theorem deafSystem_generous : Generous deafSystem := fun _ _ => rfl

end MnCommon.JsonWriter
