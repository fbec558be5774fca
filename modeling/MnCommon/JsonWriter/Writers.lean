import Mathlib.Data.List.TakeWhile
import MnCommon.Bytestream.Append
import MnCommon.Grammars.Spelling
import MnCommon.JsonWriter.Model

/-! What the writers append. -/

namespace MnCommon.JsonWriter

open Bytes (Strz bytesJsonEscape escaped escape_chars)
open Bytestream
open Grammars
open Memory (Fault)

/-- The writers, with a comma (`0`) and without one (`1`). -/
inductive Writer where
  | bytesPair (comma : Bool) (key value : Strz)
  | bytesItem (comma : Bool) (value : Strz)
  | intPair (comma : Bool) (key : Strz) (value : Int64)
  | intItem (comma : Bool) (value : Int64)
  | boolPair (comma : Bool) (key : Strz) (value : Bool)
  | boolItem (comma : Bool) (value : Bool)

variable {E : Type} (sys : System E)

def Writer.write : Writer → World E → Except Fault (Answer E)
  | .bytesPair true key value => mnjsonBytesPair0 sys key value
  | .bytesPair false key value => mnjsonBytesPair1 sys key value
  | .bytesItem true value => mnjsonBytesItem0 sys value
  | .bytesItem false value => mnjsonBytesItem1 sys value
  | .intPair true key value => mnjsonIntPair0 sys key value
  | .intPair false key value => mnjsonIntPair1 sys key value
  | .intItem true value => mnjsonIntItem0 sys value
  | .intItem false value => mnjsonIntItem1 sys value
  | .boolPair true key value => mnjsonBoolPair0 sys key value
  | .boolPair false key value => mnjsonBoolPair1 sys key value
  | .boolItem true value => mnjsonBoolItem0 sys value
  | .boolItem false value => mnjsonBoolItem1 sys value

namespace Writer

def comma : Writer → Bool
  | .bytesPair comma _ _ | .bytesItem comma _ | .intPair comma _ _ | .intItem comma _ | .boolPair comma _ _
  | .boolItem comma _ => comma

def key : Writer → Option Strz
  | .bytesPair _ key _ | .intPair _ key _ | .boolPair _ key _ => some key
  | _ => none

def tail (op : Writer) : List UInt8 := if op.comma then [44] else []

/-- What is formatted, without the comma. -/
def body : Writer → List UInt8
  | .bytesPair _ key value => quoted (printedStr key) ++ 58 :: quoted (printedStr (bytesJsonEscape value))
  | .bytesItem _ value => quoted (printedStr (bytesJsonEscape value))
  | .intPair _ key value => quoted (printedStr key) ++ 58 :: printedInt value.toInt
  | .intItem _ value => printedInt value.toInt
  | .boolPair _ key value =>
      quoted (printedStr key) ++ 58 :: (if value then [116, 114, 117, 101] else [102, 108, 115, 101])
  | .boolItem _ value => if value then [116, 114, 117, 101] else [102, 97, 108, 115, 101]

def text (op : Writer) : List UInt8 := op.body ++ op.tail

/-- The limit for the text. -/
def limit : Writer → Nat
  | .bytesPair _ key value => toSize (key.sz - 1 + 8 + (bytesJsonEscape value).sz - 1)
  | .bytesItem _ value => toSize (4 + (bytesJsonEscape value).sz - 1)
  | .intPair _ key _ => toSize (key.sz - 1 + 64)
  | .intItem _ _ => 64
  | .boolPair _ key _ => toSize (key.sz - 1 + 8)
  | .boolItem _ _ => 8

/-- The member or the element that is meant. -/
def Denotes : Writer → List UInt8 → Prop
  | .bytesPair _ key value => Member key.chars (.string value.chars)
  | .bytesItem _ value => Element (.string value.chars)
  | .intPair _ key value => Member key.chars (.integer value.toInt)
  | .intItem _ value => Element (.integer value.toInt)
  | .boolPair _ key value => Member key.chars (.boolean value)
  | .boolItem _ value => Element (.boolean value)

end Writer

/-- One member or element is appended, and a comma behind it where there is to be one. -/
def Writer.Good (op : Writer) (w : World E) : Prop :=
  ∃ answer next bytes, op.write sys w = .ok (answer, next) ∧ 0 ≤ answer ∧
    content next.stream = content w.stream ++ (bytes ++ op.tail) ∧ op.Denotes bytes

/-- The buffer has room for so many bytes, if need be after it has grown. -/
def Granted (amount : Int) (w : World E) : Prop :=
  ∃ next, makeRoom sys amount w = (true, next) ∧ w.stream.eod + amount ≤ next.stream.data.length

/-- A key that needs no escapes. -/
def PlainKey (key : Strz) : Prop := ∀ c ∈ key.chars, 32 ≤ c ∧ c ≠ 34 ∧ c ≠ 92

/-- No control character, or one that has a short escape. -/
def Escapable (c : UInt8) : Prop := 32 ≤ c ∨ c = 8 ∨ c = 9 ∨ c = 10 ∨ c = 12 ∨ c = 13

instance (c : UInt8) : Decidable (Escapable c) := inferInstanceAs (Decidable (_ ∨ _))

/-- The inputs that are written as they should be. -/
def Writer.Right : Writer → Prop
  | .bytesPair comma key value =>
      (∀ c ∈ value.chars, Escapable c) ∧ (Writer.bytesPair comma key value).text.length < 2 ^ 31
  | .bytesItem comma value => (∀ c ∈ value.chars, Escapable c) ∧ (Writer.bytesItem comma value).text.length < 2 ^ 31
  | .intPair comma key value => (Writer.intPair comma key value).text.length < 2 ^ 31
  | .intItem _ _ => True
  | .boolPair comma key value =>
      comma = false ∧ value = true ∧ (Writer.boolPair comma key value).text.length < 2 ^ 31
  | .boolItem _ _ => True

variable {sys} {w next : World E} {op : Writer} {chars : List UInt8} {size : Nat} {answer amount : Int}
  {c : UInt8}

theorem write_eq (op : Writer) (w : World E) :
    op.write sys w = bytestreamNprintf sys op.limit (formatted op.text) w := by
  cases op with
  | bytesPair comma key value | bytesItem comma value | intPair comma key value | intItem comma value
  | boolPair comma key value | boolItem comma value =>
      cases comma <;>
        simp only [Writer.write, mnjsonBytesPair0, mnjsonBytesPair1, mnjsonBytesPairBody, mnjsonBytesItem0,
          mnjsonBytesItem1, mnjsonBytesItemBody, mnjsonIntPair0, mnjsonIntPair1, mnjsonIntPairBody, mnjsonIntItem0,
          mnjsonIntItem1, mnjsonIntItemBody, mnjsonBoolPair0, mnjsonBoolPair1, mnjsonBoolPairBody, mnjsonBoolItem0,
          mnjsonBoolItem1, mnjsonBoolItemBody, Writer.limit, Writer.text, Writer.body, Writer.tail, Writer.comma,
          List.append_assoc, List.cons_append, if_true, Bool.false_eq_true, if_false]

/-! The bounded formatter. -/

theorem formatted_short (short : chars.length < 2 ^ 31) : formatted chars = some ⟨chars, short⟩ := dif_pos short

theorem formatted_long (long : ¬ chars.length < 2 ^ 31) : formatted chars = none := dif_neg long

/-- An error of the formatter is added to the end of the data, where it is not seen as a lack of room. -/
theorem failed_format (n : Int) (size : Nat) (w : World E) :
    (do
      let (nused, w) ← vsnprintf w.stream.eod size none w
      if n ≤ nused then
        return (NPRINTF_NEEDMORE, w)
      else
        return (nused, { w with stream := { w.stream with eod := w.stream.eod + nused } }) :
        Except Fault (Answer E)) =
      .ok (if n ≤ -1 then (NPRINTF_NEEDMORE, w)
        else (-1, { w with stream := { w.stream with eod := w.stream.eod + -1 } })) := by
  by_cases high : n ≤ -1
  · rw [if_pos high]
    exact if_pos high
  · rw [if_neg high]
    exact if_neg high

theorem appendFormatted_none (room : makeRoom sys size w = (true, next)) :
    appendFormatted sys size none w =
      .ok (if toSigned size ≤ -1 then (NPRINTF_NEEDMORE, next)
        else (-1, { next with stream := { next.stream with eod := next.stream.eod + -1 } })) := by
  rw [appendFormatted, room]
  exact failed_format (toSigned size) size next

/-- Without a text the answer is negative. -/
theorem appendFormatted_negative (run : appendFormatted sys size none w = .ok (answer, next)) : answer < 0 := by
  cases room : makeRoom sys size w with
  | mk grown middle =>
      cases grown with
      | false =>
          have refused : appendFormatted sys size none w = .ok (NPRINTF_ERROR, middle) := by
            simp only [appendFormatted, room]
          cases run.symm.trans refused
          decide
      | true =>
          have failed := run.symm.trans (appendFormatted_none room)
          have told := congrArg Prod.fst (Except.ok.inj failed)
          rw [apply_ite Prod.fst] at told
          change answer = _ at told
          rw [told]
          split_ifs
          · exact (by decide : NPRINTF_NEEDMORE < 0)
          · exact (by decide : (-1 : Int) < 0)

/-- What holds if a formatted append has not failed. -/
theorem nprintf_good (buffered : Buffered w.stream) (high : size < 2 ^ 64)
    (run : bytestreamNprintf sys size (formatted chars) w = .ok (answer, next)) (good : 0 ≤ answer) :
    chars.length < 2 ^ 31 ∧ chars.length < toSigned size ∧ Extended w.stream next.stream chars := by
  rw [bytestreamNprintf] at run
  by_cases short : chars.length < 2 ^ 31
  · rw [formatted_short short] at run
    have fits : Fits size (printed size ⟨chars, short⟩) w.stream := by
      by_contra beyond
      cases run.symm.trans (appendFormatted_fault sys beyond)
    rcases appendFormatted_spec sys buffered high fits with ⟨answer', next', run', effect⟩
    cases run.symm.trans run'
    rcases effect with ⟨-, negative, -⟩ | ⟨⟨-, room⟩, -, extended⟩
    · exact absurd good (not_le.mpr negative)
    · exact ⟨short, room, extended⟩
  · rw [formatted_long short] at run
    exact absurd good (not_le.mpr (appendFormatted_negative run))

theorem Granted.fits {bytes : List UInt8} (granted : Granted sys amount w) (buffered : Buffered w.stream)
    (low : 0 ≤ amount) (high : amount < 2 ^ 64) (inside : bytes.length ≤ amount) :
    (makeRoom sys amount w).1 = true ∧ Fits amount bytes w.stream := by
  rcases granted with ⟨next, room, enough⟩
  refine ⟨congrArg Prod.fst room, ?_⟩
  by_cases missing : 0 < need amount w.stream
  · exact .inl missing
  · rcases (makeRoom_spec buffered low high room).2.2.1 missing with ⟨-, rfl⟩
    exact .inr (.inr (by omega))

theorem nprintf_fits (buffered : Buffered w.stream) (short : chars.length < 2 ^ 31)
    (below : chars.length < toSigned size) (high : size < 2 ^ 64) (granted : Granted sys size w) :
    ∃ next, bytestreamNprintf sys size (formatted chars) w = .ok ((chars.length : Int), next) ∧
      Extended w.stream next.stream chars := by
  have inside : ((printed size ⟨chars, short⟩).length : Int) ≤ size := by
    exact_mod_cast length_printed size ⟨chars, short⟩
  rcases granted.fits buffered (by omega) (by omega) inside with ⟨room, fits⟩
  rcases appendFormatted_spec sys buffered high fits with ⟨answer, next, run, effect⟩
  rcases effect with ⟨full | long, -, -⟩ | ⟨-, told, extended⟩
  · exact absurd (room.symm.trans full) (by decide)
  · exact absurd below (not_lt.mpr long)
  · rw [bytestreamNprintf, formatted_short short, run, told]
    exact ⟨next, rfl, extended⟩

theorem toSize_lt (n : Int) : toSize n < 2 ^ 64 := by
  rw [toSize]
  omega

theorem limit_lt (op : Writer) : op.limit < 2 ^ 64 := by
  cases op with
  | intItem _ _ | boolItem _ _ => simp [Writer.limit]
  | _ => exact toSize_lt _

/-- The text is as meant, and it is shorter than the limit. -/
theorem good_iff_denotes (op : Writer) (buffered : Buffered w.stream) (granted : Granted sys op.limit w) :
    op.Good sys w ↔ op.Denotes op.body ∧ op.text.length < 2 ^ 31 ∧ op.text.length < toSigned op.limit := by
  constructor
  · rintro ⟨answer, next, bytes, run, good, added, denotes⟩
    rw [write_eq] at run
    rcases nprintf_good buffered (limit_lt op) run good with ⟨short, below, extended⟩
    have whole : bytes ++ op.tail = op.body ++ op.tail := List.append_cancel_left (added.symm.trans extended.content)
    rw [List.append_cancel_right whole] at denotes
    exact ⟨denotes, short, below⟩
  · rintro ⟨denotes, short, below⟩
    rcases nprintf_fits buffered short below (limit_lt op) granted with ⟨next, run, extended⟩
    exact ⟨_, next, op.body, (write_eq op w).trans run, Int.natCast_nonneg _, extended.content, denotes⟩

/-! Strings. -/

theorem printedStr_eq {s : Strz} (clean : ∀ c ∈ s.chars, c ≠ 0) : printedStr s = s.chars :=
  List.takeWhile_eq_self_iff.mpr fun c inside => decide_eq_true (clean c inside)

theorem PlainKey.clean {key : Strz} (plain : PlainKey key) : ∀ c ∈ key.chars, c ≠ 0 := by
  rintro c inside rfl
  exact absurd (plain 0 inside).1 (by decide)

theorem PlainKey.printed {key : Strz} (plain : PlainKey key) : printedStr key = key.chars := printedStr_eq plain.clean

theorem PlainKey.spells {key : Strz} (plain : PlainKey key) : Spells key.chars key.chars := spells_plain plain

/-- A character is written as it is or as an escape that stands for it. -/
theorem escaped_cases (c : UInt8) :
    (escaped c = [c] ∧ c ≠ 34 ∧ c ≠ 92 ∧ (Escapable c → 32 ≤ c)) ∨
      ∃ d, escaped c = [92, d] ∧ d ≠ 0 ∧ escapeMeans d = some c ∧ Escapable c := by
  rw [escaped]
  split_ifs with marked back form line carriage tab
  · refine .inr ⟨c, rfl, ?_⟩
    rcases marked with rfl | rfl | rfl <;> decide
  · subst back
    exact .inr ⟨98, rfl, by decide⟩
  · subst form
    exact .inr ⟨102, rfl, by decide⟩
  · subst line
    exact .inr ⟨110, rfl, by decide⟩
  · subst carriage
    exact .inr ⟨114, rfl, by decide⟩
  · subst tab
    exact .inr ⟨116, rfl, by decide⟩
  · simp only [not_or] at marked
    refine .inl ⟨rfl, marked.2.1, marked.1, ?_⟩
    rintro (range | rfl | rfl | rfl | rfl | rfl)
    · exact range
    all_goals contradiction

/-- Up to a NUL the escaped characters are printed. -/
theorem printed_escape (value : Strz) :
    printedStr (bytesJsonEscape value) = (value.chars.flatMap escaped).takeWhile (· ≠ 0) := by
  rw [printedStr, escape_chars]

theorem spells_escape (right : ∀ c ∈ chars, Escapable c) :
    Spells ((chars.flatMap escaped).takeWhile (· ≠ 0)) chars := by
  induction chars with
  | nil => exact .nil
  | cons c chars ih =>
      rcases List.forall_mem_cons.mp right with ⟨first, others⟩
      rw [List.flatMap_cons]
      rcases escaped_cases c with ⟨same, quote, slash, range⟩ | ⟨d, same, nonzero, means, -⟩
      · have range := range first
        have nonzero : c ≠ 0 := by
          rintro rfl
          exact absurd range (by decide)
        rw [same, List.singleton_append, List.takeWhile_cons_of_pos (by simp [nonzero])]
        exact .unescaped range quote slash (ih others)
      · rw [same, List.cons_append, List.singleton_append, List.takeWhile_cons_of_pos (by decide),
          List.takeWhile_cons_of_pos (by simp [nonzero])]
        exact .escape means (ih others)

/-- The other control characters are written as they are, and no string has them. -/
theorem escapable_of_spells (spells : Spells ((chars.flatMap escaped).takeWhile (· ≠ 0)) chars) :
    ∀ c ∈ chars, Escapable c := by
  induction chars with
  | nil => simp
  | cons c chars ih =>
      rw [List.flatMap_cons] at spells
      rcases escaped_cases c with ⟨same, quote, slash, -⟩ | ⟨d, same, nonzero, means, first⟩
      · rw [same, List.singleton_append] at spells
        by_cases zero : c = 0
        · subst zero
          rw [List.takeWhile_cons_of_neg (by decide)] at spells
          cases spells
        · rw [List.takeWhile_cons_of_pos (by simp [zero])] at spells
          rcases spells.plain slash with ⟨range, more⟩
          exact List.forall_mem_cons.mpr ⟨.inl range, ih more⟩
      · rw [same, List.cons_append, List.singleton_append, List.takeWhile_cons_of_pos (by decide),
          List.takeWhile_cons_of_pos (by simp [nonzero])] at spells
        exact List.forall_mem_cons.mpr ⟨first, ih spells.escaped⟩

theorem element_bytes_iff (value : Strz) :
    Element (.string value.chars) (quoted (printedStr (bytesJsonEscape value))) ↔ ∀ c ∈ value.chars, Escapable c := by
  rw [printed_escape, quoted]
  constructor
  · intro element
    rcases element_string_inv element with ⟨body, same, spells⟩
    have whole := List.append_cancel_right (List.cons.inj same).2
    rw [← whole] at spells
    exact escapable_of_spells spells
  · exact fun right => element_string (spells_escape right)

/-! Integers. -/

theorem digit_char {d : Nat} (small : d < 10) :
    IsDigit (UInt8.ofNat (48 + d)) ∧ (UInt8.ofNat (48 + d)).toNat - 48 = d ∧ (UInt8.ofNat (48 + d) = 48 → d = 0) := by
  have digits : ∀ d < 10, IsDigit (UInt8.ofNat (48 + d)) ∧ (UInt8.ofNat (48 + d)).toNat - 48 = d ∧
      (UInt8.ofNat (48 + d) = 48 → d = 0) := by decide
  exact digits d small

theorem printedNat_spec (n : Nat) : IntPart (printedNat n) ∧ decimal (printedNat n) = n := by
  rw [printedNat]
  split_ifs with zero
  · subst zero
    exact ⟨.inl rfl, rfl⟩
  · have small : ∀ d ∈ Nat.digits 10 n, d < 10 := fun d inside => Nat.digits_lt_base (by decide) inside
    have some : Nat.digits 10 n ≠ [] := Nat.digits_ne_nil_iff_ne_zero.mpr zero
    refine ⟨.inr ⟨⟨?_, ?_⟩, ?_⟩, ?_⟩
    · simpa using some
    · intro c inside
      rcases List.mem_map.mp inside with ⟨d, among, rfl⟩
      exact (digit_char (small d (List.mem_reverse.mp among))).1
    · rw [List.head?_map, List.head?_reverse, List.getLast?_eq_some_getLast some]
      intro wrong
      have last := Nat.getLast_digit_ne_zero 10 zero
      exact last ((digit_char (small _ (List.getLast_mem some))).2.2 (Option.some.inj wrong))
    · have same : (Nat.digits 10 n).map ((fun d : UInt8 => d.toNat - 48) ∘ fun d => UInt8.ofNat (48 + d)) =
          (Nat.digits 10 n).map fun d => d := List.map_congr_left fun d among => (digit_char (small d among)).2.1
      rw [decimal, ← List.map_reverse, List.reverse_reverse, List.map_map, same, List.map_id', Nat.ofDigits_digits]

theorem printedInt_integer (n : Int) : Integer (printedInt n) n := by
  rcases printedNat_spec n.natAbs with ⟨int, value⟩
  refine ⟨printedNat n.natAbs, int, ?_⟩
  rw [value, printedInt]
  split_ifs with negative
  · exact .inr ⟨rfl, by omega⟩
  · exact .inl ⟨rfl, by omega⟩

theorem length_printedNat {n : Nat} (small : n < 10 ^ 19) : (printedNat n).length ≤ 19 := by
  rw [printedNat]
  split_ifs
  · decide
  · rw [List.length_map, List.length_reverse]
    exact (Nat.digits_length_le_iff (by decide) n).mpr small

theorem length_printedInt (value : Int64) : (printedInt value.toInt).length ≤ 20 := by
  have low := value.le_toInt
  have high := value.toInt_lt
  have short := @length_printedNat value.toInt.natAbs (by omega)
  rw [printedInt]
  split_ifs
  · rw [List.length_cons]
    omega
  · omega

/-! The writers one by one. -/

theorem toSigned_limit {n : Int} (low : 0 ≤ n) (high : n < 2 ^ 63) : toSigned (toSize n) = n := by
  rw [toSize_of_range low (by omega)]
  exact toSigned_of_range (by omega) high

theorem length_quoted (chars : List UInt8) : (quoted chars).length = chars.length + 2 := by simp [quoted]

theorem length_tail (op : Writer) : op.tail.length ≤ 1 := by
  rw [Writer.tail]
  split_ifs <;> decide

theorem written_key {key : Strz} (plain : PlainKey key) (seg : List UInt8) :
    quoted (printedStr key) ++ 58 :: seg = 34 :: (key.chars ++ 34 :: 58 :: seg) := by
  simp [quoted, plain.printed]

theorem member_of_key {key : Strz} {m : Meaning} {seg : List UInt8} (plain : PlainKey key) (element : Element m seg) :
    Member key.chars m (quoted (printedStr key) ++ 58 :: seg) := by
  rw [written_key plain]
  exact member_of_element plain.spells element

/-- A key that needs no escapes is followed by its value. -/
theorem value_of_key {key : Strz} {m : Meaning} {seg : List UInt8} (plain : PlainKey key)
    (first : ∀ c ∈ seg.head?, ¬ rfc7159.space c)
    (member : Member key.chars m (quoted (printedStr key) ++ 58 :: seg)) : Element m seg := by
  rw [written_key plain] at member
  exact member.value plain.spells.chars.closed first

theorem Escapable.nonzero (right : Escapable c) : c ≠ 0 := by
  rintro rfl
  exact absurd right (by decide)

/-- The escaped value is printed whole. -/
theorem printed_whole {value : Strz} (clean : ∀ c ∈ value.chars, c ≠ 0) :
    printedStr (bytesJsonEscape value) = (bytesJsonEscape value).chars := by
  apply printedStr_eq
  rw [escape_chars]
  intro c inside
  rcases List.mem_flatMap.mp inside with ⟨d, among, part⟩
  rcases escaped_cases d with ⟨same, -⟩ | ⟨letter, same, nonzero, -⟩
  · rw [same, List.mem_singleton] at part
    rw [part]
    exact clean d among
  · rw [same] at part
    rcases List.mem_pair.mp part with rfl | rfl
    · decide
    · exact nonzero

theorem bytesItem_iff (comma : Bool) (value : Strz) :
    (Writer.bytesItem comma value).Denotes (Writer.bytesItem comma value).body ∧
        (Writer.bytesItem comma value).text.length < 2 ^ 31 ∧
        (Writer.bytesItem comma value).text.length < toSigned (Writer.bytesItem comma value).limit ↔
      (Writer.bytesItem comma value).Right := by
  constructor
  · intro ⟨denotes, short, _⟩
    exact ⟨(element_bytes_iff value).mp denotes, short⟩
  · intro ⟨right, short⟩
    refine ⟨(element_bytes_iff value).mpr right, short, ?_⟩
    have clean : ∀ c ∈ value.chars, c ≠ 0 := fun c inside => (right c inside).nonzero
    have tail := length_tail (.bytesItem comma value)
    have length : (Writer.bytesItem comma value).text.length =
        (bytesJsonEscape value).chars.length + 2 + (Writer.bytesItem comma value).tail.length := by
      rw [Writer.text, Writer.body, printed_whole clean, List.length_append, length_quoted]
    have limit : toSigned (Writer.bytesItem comma value).limit = (bytesJsonEscape value).chars.length + 4 := by
      rw [Writer.limit, toSigned_limit] <;> rw [Strz.sz_eq] <;> omega
    omega

/-- The limit of a pair is enough for its text. -/
theorem bytesPair_below (comma : Bool) {key value : Strz} (clean : ∀ c ∈ key.chars, c ≠ 0)
    (clean' : ∀ c ∈ value.chars, c ≠ 0) (short : (Writer.bytesPair comma key value).text.length < 2 ^ 31) :
    (Writer.bytesPair comma key value).text.length < toSigned (Writer.bytesPair comma key value).limit := by
  have tail := length_tail (.bytesPair comma key value)
  have length : (Writer.bytesPair comma key value).text.length = key.chars.length + 2 +
      ((bytesJsonEscape value).chars.length + 3) + (Writer.bytesPair comma key value).tail.length := by
    rw [Writer.text, Writer.body, printed_whole clean', printedStr_eq clean, List.length_append, List.length_append,
      List.length_cons, length_quoted, length_quoted]
  have limit : toSigned (Writer.bytesPair comma key value).limit =
      key.chars.length + (bytesJsonEscape value).chars.length + 8 := by
    rw [Writer.limit, toSigned_limit] <;> rw [Strz.sz_eq, Strz.sz_eq] <;> omega
  omega

theorem bytesPair_iff (comma : Bool) {key : Strz} (value : Strz) (plain : PlainKey key) :
    (Writer.bytesPair comma key value).Denotes (Writer.bytesPair comma key value).body ∧
        (Writer.bytesPair comma key value).text.length < 2 ^ 31 ∧
        (Writer.bytesPair comma key value).text.length < toSigned (Writer.bytesPair comma key value).limit ↔
      (Writer.bytesPair comma key value).Right := by
  constructor
  · rintro ⟨denotes, short, _⟩
    have element := value_of_key plain (by simp [quoted, rfc7159]) denotes
    exact ⟨(element_bytes_iff value).mp element, short⟩
  · rintro ⟨right, short⟩
    have below := bytesPair_below comma plain.clean (fun c inside => (right c inside).nonzero) short
    exact ⟨member_of_key plain ((element_bytes_iff value).mpr right), short, below⟩

theorem intItem_iff (comma : Bool) (value : Int64) :
    (Writer.intItem comma value).Denotes (Writer.intItem comma value).body ∧
        (Writer.intItem comma value).text.length < 2 ^ 31 ∧
        (Writer.intItem comma value).text.length < toSigned (Writer.intItem comma value).limit ↔
      (Writer.intItem comma value).Right := by
  have tail := length_tail (.intItem comma value)
  have digits := length_printedInt value
  have length : (Writer.intItem comma value).text.length =
      (printedInt value.toInt).length + (Writer.intItem comma value).tail.length := by
    rw [Writer.text, Writer.body, List.length_append]
  have limit : toSigned (Writer.intItem comma value).limit = 64 := by
    rw [Writer.limit]
    decide
  refine iff_of_true ⟨element_integer (printedInt_integer value.toInt), ?_, ?_⟩ trivial
  · omega
  · omega

theorem intPair_iff (comma : Bool) {key : Strz} (value : Int64) (plain : PlainKey key) :
    (Writer.intPair comma key value).Denotes (Writer.intPair comma key value).body ∧
        (Writer.intPair comma key value).text.length < 2 ^ 31 ∧
        (Writer.intPair comma key value).text.length < toSigned (Writer.intPair comma key value).limit ↔
      (Writer.intPair comma key value).Right := by
  constructor
  · exact fun denoted => denoted.2.1
  · intro short
    refine ⟨member_of_key plain (element_integer (printedInt_integer value.toInt)), short, ?_⟩
    have tail := length_tail (.intPair comma key value)
    have digits := length_printedInt value
    have length : (Writer.intPair comma key value).text.length = key.chars.length + 2 +
        ((printedInt value.toInt).length + 1) + (Writer.intPair comma key value).tail.length := by
      rw [Writer.text, Writer.body, plain.printed, List.length_append, List.length_append, List.length_cons,
        length_quoted]
    change (Writer.intPair comma key value).text.length < 2 ^ 31 at short
    have limit : toSigned (Writer.intPair comma key value).limit = key.chars.length + 64 := by
      rw [Writer.limit, toSigned_limit] <;> rw [Strz.sz_eq] <;> omega
    omega

theorem boolItem_iff (comma value : Bool) :
    (Writer.boolItem comma value).Denotes (Writer.boolItem comma value).body ∧
        (Writer.boolItem comma value).text.length < 2 ^ 31 ∧
        (Writer.boolItem comma value).text.length < toSigned (Writer.boolItem comma value).limit ↔
      (Writer.boolItem comma value).Right := by
  refine iff_of_true ⟨element_boolean value, ?_⟩ trivial
  cases comma <;> cases value <;> decide

theorem boolPair_iff (comma : Bool) {key : Strz} (value : Bool) (plain : PlainKey key) :
    (Writer.boolPair comma key value).Denotes (Writer.boolPair comma key value).body ∧
        (Writer.boolPair comma key value).text.length < 2 ^ 31 ∧
        (Writer.boolPair comma key value).text.length < toSigned (Writer.boolPair comma key value).limit ↔
      (Writer.boolPair comma key value).Right := by
  cases value with
  | false =>
      constructor
      · rintro ⟨denotes, _⟩
        have element := value_of_key plain (by simp [rfc7159]) denotes
        exact absurd (element_boolean_inv element) (by decide)
      · exact fun right => absurd right.2.1 (by decide)
  | true =>
      have length : (Writer.boolPair comma key true).text.length =
          key.chars.length + 2 + 5 + (Writer.boolPair comma key true).tail.length := by
        rw [Writer.text, Writer.body, plain.printed, List.length_append, List.length_append, length_quoted]
        rfl
      have denotes : (Writer.boolPair comma key true).Denotes (Writer.boolPair comma key true).body :=
        member_of_key plain (element_boolean true)
      have limit (short : (Writer.boolPair comma key true).text.length < 2 ^ 31) :
          toSigned (Writer.boolPair comma key true).limit = key.chars.length + 8 := by
        rw [Writer.limit, toSigned_limit] <;> rw [Strz.sz_eq] <;> omega
      cases comma with
      | true =>
          constructor
          · rintro ⟨_, short, below⟩
            rw [limit short, length] at below
            change ((key.chars.length + 2 + 5 + 1 : Nat) : Int) < _ at below
            omega
          · exact fun right => absurd right.1 (by decide)
      | false =>
          constructor
          · rintro ⟨_, short, _⟩
            exact ⟨rfl, rfl, short⟩
          · rintro ⟨_, _, short⟩
            refine ⟨denotes, short, ?_⟩
            rw [limit short, length]
            change ((key.chars.length + 2 + 5 + 0 : Nat) : Int) < _
            omega

theorem right_iff_denotes {op : Writer} (plain : ∀ key, op.key = some key → PlainKey key) :
    op.Denotes op.body ∧ op.text.length < 2 ^ 31 ∧ op.text.length < toSigned op.limit ↔ op.Right := by
  cases op with
  | bytesPair comma key value => exact bytesPair_iff comma value (plain key rfl)
  | bytesItem comma value => exact bytesItem_iff comma value
  | intPair comma key value => exact intPair_iff comma value (plain key rfl)
  | intItem comma value => exact intItem_iff comma value
  | boolPair comma key value => exact boolPair_iff comma value (plain key rfl)
  | boolItem comma value => exact boolItem_iff comma value

/-- With memory for it a writer appends what is meant exactly for the inputs above. -/
theorem write_good_iff (op : Writer) (w : World E) (buffered : Buffered w.stream)
    (plain : ∀ key, op.key = some key → PlainKey key) (granted : Granted sys op.limit w) :
    op.Good sys w ↔ op.Right :=
  (good_iff_denotes op buffered granted).trans (right_iff_denotes plain)

theorem emptyStream_buffered : Buffered emptyStream := emptyStream_started.appendable.buffered

/-- A quotation mark and a line feed. -/
theorem write_good_sample : (Writer.bytesPair true ⟨[107]⟩ ⟨[34, 10]⟩).Good deafSystem ⟨emptyStream, ()⟩ :=
  (write_good_iff (.bytesPair true ⟨[107]⟩ ⟨[34, 10]⟩) ⟨emptyStream, ()⟩ emptyStream_buffered
    (by
      intro key same
      cases same
      simp [PlainKey])
    ⟨_, rfl, by decide⟩).mpr ⟨by simp [Escapable], by decide⟩

/-- `"k":flse`. -/
theorem write_flse :
    ¬ ∀ (op : Writer) (w : World Unit), Buffered w.stream → (∀ key, op.key = some key → PlainKey key) →
      Granted deafSystem op.limit w → op.Good deafSystem w := by
  intro always
  have granted : Granted deafSystem (Writer.boolPair false ⟨[107]⟩ false).limit ⟨emptyStream, ()⟩ :=
    ⟨_, rfl, by decide⟩
  have good := always (.boolPair false ⟨[107]⟩ false) ⟨emptyStream, ()⟩ emptyStream_buffered
    (by
      intro key same
      cases same
      simp [PlainKey])
    granted
  have denotes := ((good_iff_denotes _ emptyStream_buffered granted).mp good).1
  have element := value_of_key (by simp [PlainKey]) (by simp [rfc7159]) denotes
  exact absurd (element_boolean_inv element) (by decide)

end MnCommon.JsonWriter
