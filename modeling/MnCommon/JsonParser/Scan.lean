import MnCommon.JsonParser.Model
import MnCommon.Grammars.Unique

/-! The scanners of `json.c` for strings, numbers and tokens. -/

namespace MnCommon.JsonParser

open Grammars (IsDigit IsLetter IsWord Closed)

/-- What is left of the text at an index. -/
structure Faces (input : List UInt8) (idx : Nat) (rest : List UInt8) : Prop where
  inside : idx ≤ input.length
  left : input.drop idx = rest

section

variable {input front rest : List UInt8} {idx : Nat} {c : UInt8}

theorem Faces.start (input : List UInt8) : Faces input 0 input := ⟨Nat.zero_le _, rfl⟩

theorem Faces.length (faces : Faces input idx rest) : idx + rest.length = input.length := by
  have inside := faces.inside
  rw [← faces.left, List.length_drop]
  omega

theorem Faces.advance (faces : Faces input idx (front ++ rest)) : Faces input (idx + front.length) rest := by
  have length := faces.length
  rw [List.length_append] at length
  refine ⟨by omega, ?_⟩
  rw [← List.drop_drop, faces.left, List.drop_left]

theorem Faces.step (faces : Faces input idx (c :: rest)) : Faces input (idx + 1) rest :=
  have front : Faces input idx ([c] ++ rest) := faces
  front.advance

theorem Faces.head (faces : Faces input idx (c :: rest)) : input[idx]? = some c := by
  rw [← List.head?_drop, faces.left]
  rfl

theorem Faces.none (faces : Faces input idx []) : input[idx]? = none := by
  rw [← List.head?_drop, faces.left]
  rfl

/-- A piece of the text that has been passed. -/
theorem Faces.slice (faces : Faces input idx (front ++ rest)) :
    (input.drop idx).take front.length = front := by
  rw [faces.left, List.take_left]

end

def NumChar (c : UInt8) : Prop := IsDigit c ∨ c = 46 ∨ c = 101 ∨ c = 69 ∨ c = 45

def TokChar (c : UInt8) : Prop := IsLetter c ∨ IsDigit c ∨ c = 46

theorem NumChar.word {c : UInt8} (char : NumChar c) : IsWord c := by
  rcases char with digit | rfl | rfl | rfl | rfl
  · exact .inl digit
  all_goals decide

theorem TokChar.word {c : UInt8} (char : TokChar c) : IsWord c := by
  rcases char with letter | digit | rfl
  · exact .inr (.inl letter)
  · exact .inl digit
  · decide

instance (c : UInt8) : Decidable (NumChar c) := inferInstanceAs (Decidable (_ ∨ _))

instance (c : UInt8) : Decidable (TokChar c) := inferInstanceAs (Decidable (_ ∨ _))

variable {U A : Type} {ctx ctx' : JsonCtx U A} {body chars cs rest : List UInt8} {c d : UInt8}

/-- The state in which `json_parse_str` leaves the context at an index. -/
def JsonCtx.strEnded (ctx : JsonCtx U A) (flags : JsonFlags) (idx : Nat) : JsonCtx U A :=
  { ctx with st := .strOut, flags := flags, ty := .string, idx := idx }

theorem strLoop_str (closed : Closed body) (rest : List UInt8) (ctx : JsonCtx U A) (st : ctx.st = .str) :
    strLoop (body ++ 34 :: rest) ctx = .ok (ctx.strEnded ctx.flags (ctx.idx + body.length)) := by
  induction closed generalizing ctx with
  | nil => simp [strLoop, strEnd, st, JsonCtx.strEnded]
  | @char c body quote slash _ ih =>
      have index : ctx.idx + (c :: body).length = ctx.idx + 1 + body.length := by
        rw [List.length_cons]
        omega
      rw [index]
      simp only [List.cons_append, strLoop, st, if_neg slash, if_neg quote]
      exact ih { ctx with st := .str, idx := ctx.idx + 1 } rfl
  | @escape c body _ ih =>
      have index : ctx.idx + (92 :: c :: body).length = ctx.idx + 1 + 1 + body.length := by
        rw [List.length_cons, List.length_cons]
        omega
      rw [index]
      simp only [List.cons_append, strLoop, st, if_true]
      exact ih { ctx with st := .str, idx := ctx.idx + 1 + 1 } rfl

/-- An escape is noticed at the beginning of a string only. -/
def JsonFlags.ofString (flags : JsonFlags) (body : List UInt8) : JsonFlags :=
  { flags with needUnescape := flags.needUnescape || body.head? = some 92 }

theorem strLoop_closed (closed : Closed body) (rest : List UInt8) (ctx : JsonCtx U A) (st : ctx.st = .strIn) :
    strLoop (body ++ 34 :: rest) ctx = .ok (ctx.strEnded (ctx.flags.ofString body) (ctx.idx + body.length)) := by
  cases closed with
  | nil => simp [strLoop, strEnd, st, JsonCtx.strEnded, JsonFlags.ofString]
  | @char c body quote slash closed =>
      have index : ctx.idx + (c :: body).length = ctx.idx + 1 + body.length := by
        rw [List.length_cons]
        omega
      have flags : ctx.flags.ofString (c :: body) = ctx.flags := by simp [JsonFlags.ofString, slash]
      rw [index, flags]
      simp only [List.cons_append, strLoop, st, if_neg slash, if_neg quote]
      exact strLoop_str closed rest { ctx with st := .str, idx := ctx.idx + 1 } rfl
  | @escape c body closed =>
      have index : ctx.idx + (92 :: c :: body).length = ctx.idx + 1 + 1 + body.length := by
        rw [List.length_cons, List.length_cons]
        omega
      have flags : ctx.flags.ofString (92 :: c :: body) = { ctx.flags with needUnescape := true } := by
        simp [JsonFlags.ofString]
      rw [index, flags]
      simp only [List.cons_append, strLoop, st, if_true]
      exact strLoop_str closed rest
        { ctx with st := .str, flags.needUnescape := true, idx := ctx.idx + 1 + 1 } rfl

theorem strLoop_inside {ch : UInt8} (inside : ctx.st = .strIn ∨ ctx.st = .str)
    (run : strLoop (ch :: chars) ctx = .ok ctx') :
    (ch = 34 ∧ ctx' = ctx.strEnded ctx.flags ctx.idx) ∨ ∃ st flags, strLoop chars
      { ctx with st := st, flags := flags, idx := ctx.idx + 1 } = .ok ctx' ∧
        ((ch = 92 ∧ st = .strEsc) ∨ (ch ≠ 92 ∧ ch ≠ 34 ∧ st = .str)) := by
  by_cases slash : ch = 92
  · right
    rcases inside with st | st
    all_goals
      simp only [strLoop, st, if_pos slash] at run
      exact ⟨_, _, run, .inl ⟨slash, rfl⟩⟩
  · by_cases quote : ch = 34
    · left
      rcases inside with st | st
      all_goals
        simp only [strLoop, st, if_neg slash, if_pos quote, strEnd, if_true] at run
        exact ⟨quote, (Except.ok.inj run).symm⟩
    · right
      rcases inside with st | st
      all_goals
        simp only [strLoop, st, if_neg slash, if_neg quote] at run
        exact ⟨_, _, run, .inr ⟨slash, quote, rfl⟩⟩

/-- A string ends at the first quotation mark that does not go with a backslash. -/
theorem strLoop_ok (inside : (ctx.st = .strIn ∨ ctx.st = .str) ∨ ctx.st = .strEsc)
    (run : strLoop chars ctx = .ok ctx') :
    ∃ body rest flags, chars = body ++ 34 :: rest ∧ ctx' = ctx.strEnded flags (ctx.idx + body.length) ∧
      (ctx.st = .strIn ∨ ctx.st = .str → Closed body) ∧ (ctx.st = .strEsc → Closed (92 :: body)) := by
  induction chars generalizing ctx with
  | nil =>
      rw [strLoop, strEnd, if_neg (by rcases inside with (st | st) | st <;> rw [st] <;> decide)] at run
      cases run
  | cons ch chars ih =>
      rcases inside with inside | escaped
      · have unescaped : ctx.st ≠ .strEsc := by rcases inside with st | st <;> rw [st] <;> decide
        rcases strLoop_inside inside run with ⟨rfl, rfl⟩ | ⟨st, flags, more, ⟨rfl, rfl⟩ | ⟨slash, quote, rfl⟩⟩
        · exact ⟨[], chars, ctx.flags, rfl, rfl, fun _ => .nil, fun wrong => absurd wrong unescaped⟩
        · rcases ih (.inr rfl) more with ⟨body, rest, flags, rfl, rfl, -, closed⟩
          refine ⟨92 :: body, rest, flags, rfl, ?_, fun _ => closed rfl, fun wrong => absurd wrong unescaped⟩
          rw [List.length_cons, ← Nat.add_assoc, Nat.add_right_comm]
          rfl
        · rcases ih (.inl (.inr rfl)) more with ⟨body, rest, flags, rfl, rfl, closed, -⟩
          refine ⟨ch :: body, rest, flags, rfl, ?_, fun _ => .char quote slash (closed (.inr rfl)),
            fun wrong => absurd wrong unescaped⟩
          rw [List.length_cons, ← Nat.add_assoc, Nat.add_right_comm]
          rfl
      · have unquoted : ¬ (ctx.st = .strIn ∨ ctx.st = .str) := by rw [escaped]; decide
        simp only [strLoop, escaped] at run
        rcases ih (.inl (.inr rfl)) run with ⟨body, rest, flags, rfl, rfl, closed, -⟩
        refine ⟨ch :: body, rest, flags, rfl, ?_, fun wrong => absurd wrong unquoted,
          fun _ => .escape ch (closed (.inr rfl))⟩
        rw [List.length_cons, ← Nat.add_assoc, Nat.add_right_comm]
        rfl

/-- What the flags say about the characters of a number. -/
def JsonFlags.scan (flags : JsonFlags) (chars : List UInt8) : JsonFlags :=
  { flags with
    float := flags.float || chars.any (· = 46)
    scientific := flags.scientific || chars.any fun c => c = 101 || c = 69 || c = 45 }

/-- The state in which `json_parse_num` leaves the context after some characters more. -/
def JsonCtx.numEnded (ctx : JsonCtx U A) (chars : List UInt8) : JsonCtx U A :=
  { ctx with
    st := .numOut
    flags := ctx.flags.scan chars
    idx := ctx.idx + chars.length - 1
    ty := if (ctx.flags.scan chars).float || (ctx.flags.scan chars).scientific then .float else .int }

theorem JsonFlags.scan_cons (flags : JsonFlags) (c : UInt8) (chars : List UInt8) :
    (flags.scan [c]).scan chars = flags.scan (c :: chars) := by
  simp only [JsonFlags.scan, List.any_cons, List.any_nil, Bool.or_false, Bool.or_assoc]

theorem JsonFlags.scan_digit {flags : JsonFlags} (digit : IsDigit c) : flags.scan [c] = flags := by
  have other : c ≠ 46 ∧ c ≠ 101 ∧ c ≠ 69 ∧ c ≠ 45 := by
    refine ⟨?_, ?_, ?_, ?_⟩
    all_goals
      rintro rfl
      exact absurd digit (by decide)
  simp [JsonFlags.scan, other]

theorem numLoop_char (st : ctx.st = .num) (char : NumChar c) :
    numLoop (c :: cs) ctx = numLoop cs { ctx with st := .num, flags := ctx.flags.scan [c], idx := ctx.idx + 1 } := by
  by_cases digit : IsDigit c
  · simp only [numLoop, st, if_pos digit]
    rw [JsonFlags.scan_digit digit]
  · simp only [numLoop, st, if_neg digit]
    rcases char with wrong | rfl | rfl | rfl | rfl
    · exact absurd wrong digit
    all_goals simp [JsonFlags.scan]

theorem numLoop_chars (st : ctx.st = .num) (all : ∀ x ∈ cs, NumChar x) :
    numLoop (cs ++ rest) ctx =
      numLoop rest { ctx with st := .num, flags := ctx.flags.scan cs, idx := ctx.idx + cs.length } := by
  induction cs generalizing ctx with
  | nil => simp [JsonFlags.scan, ← st]
  | cons c cs ih =>
      rcases List.forall_mem_cons.mp all with ⟨char, others⟩
      have index : ctx.idx + (c :: cs).length = ctx.idx + 1 + cs.length := by
        rw [List.length_cons]
        omega
      rw [List.cons_append, numLoop_char st char, ih rfl others, index, JsonFlags.scan_cons]

theorem numLoop_end (st : ctx.st = .num) (ends : ¬ NumChar d) : numLoop (d :: rest) ctx = .ok (ctx.numEnded []) := by
  simp only [NumChar, not_or] at ends
  rcases ends with ⟨digit, point, e, capital, minus⟩
  simp only [numLoop, st, if_neg digit, if_neg point, e, capital, minus, or_self, if_false, numEnd, if_true]
  simp [JsonCtx.numEnded, JsonFlags.scan]

theorem numLoop_nil (st : ctx.st = .num) : numLoop [] ctx = .error (.needMore, ctx) := by
  rw [numLoop, numEnd, if_neg (by rw [st]; decide)]

theorem exists_run (P : UInt8 → Prop) [DecidablePred P] (chars : List UInt8) :
    ∃ cs rest, chars = cs ++ rest ∧ (∀ x ∈ cs, P x) ∧ ∀ d ∈ rest.head?, ¬ P d := by
  induction chars with
  | nil => exact ⟨[], [], rfl, by simp, by simp⟩
  | cons c chars ih =>
      by_cases holds : P c
      · rcases ih with ⟨cs, rest, rfl, all, ends⟩
        exact ⟨c :: cs, rest, rfl, List.forall_mem_cons.mpr ⟨holds, all⟩, ends⟩
      · exact ⟨[], c :: chars, rfl, by simp, fun d head => Option.some.inj head ▸ holds⟩

/-- A number ends at the first character that is not one of a number. -/
theorem numLoop_ok (st : ctx.st = .num) (run : numLoop chars ctx = .ok ctx') :
    ∃ cs d rest, chars = cs ++ d :: rest ∧ (∀ x ∈ cs, NumChar x) ∧ ¬ NumChar d ∧ ctx' = ctx.numEnded cs := by
  rcases exists_run NumChar chars with ⟨cs, rest, rfl, all, ends⟩
  rw [numLoop_chars st all] at run
  cases rest with
  | nil =>
      rw [numLoop_nil rfl] at run
      cases run
  | cons d rest =>
      rw [numLoop_end rfl (ends d rfl)] at run
      cases run
      refine ⟨cs, d, rest, rfl, all, ends d rfl, ?_⟩
      simp [JsonCtx.numEnded, JsonFlags.scan]

theorem numLoop_first (st : ctx.st = .numIn) (first : IsDigit c ∨ c = 45) :
    numLoop (c :: chars) ctx = numLoop chars { ctx with st := .num, idx := ctx.idx + 1 } := by
  simp only [numLoop, st, if_pos first]

/-- The state in which `json_parse_tok` leaves the context at an index. -/
def JsonCtx.tokEnded (ctx : JsonCtx U A) (idx : Nat) : JsonCtx U A :=
  { ctx with st := .tokOut, ty := .null, idx := idx }

theorem tokLoop_chars (st : ctx.st = .tok) (all : ∀ x ∈ cs, TokChar x) :
    tokLoop (cs ++ rest) ctx = tokLoop rest { ctx with st := .tok, idx := ctx.idx + cs.length } := by
  induction cs generalizing ctx with
  | nil => simp [← st]
  | cons c cs ih =>
      rcases List.forall_mem_cons.mp all with ⟨char, others⟩
      have index : ctx.idx + (c :: cs).length = ctx.idx + 1 + cs.length := by
        rw [List.length_cons]
        omega
      have same : tokLoop (c :: (cs ++ rest)) ctx =
          tokLoop (cs ++ rest) { ctx with st := .tok, idx := ctx.idx + 1 } := by
        simp only [tokLoop, st]
        exact if_pos char
      rw [List.cons_append, same, ih rfl others, index]

theorem tokLoop_end (st : ctx.st = .tok) (ends : ¬ TokChar d) :
    tokLoop (d :: rest) ctx = .ok (ctx.tokEnded (ctx.idx - 1)) := by
  simp only [tokLoop, st]
  exact if_neg ends

theorem tokLoop_first (st : ctx.st = .tokIn) (first : IsLetter c) :
    tokLoop (c :: chars) ctx = tokLoop chars { ctx with st := .tok, idx := ctx.idx + 1 } := by
  have char : TokChar c := .inl first
  simp only [tokLoop, st]
  exact if_pos char

theorem tokLoop_ok (st : ctx.st = .tok) (run : tokLoop chars ctx = .ok ctx') :
    ∃ cs d rest, chars = cs ++ d :: rest ∧ (∀ x ∈ cs, TokChar x) ∧ ¬ TokChar d ∧
      ctx' = ctx.tokEnded (ctx.idx + cs.length - 1) := by
  rcases exists_run TokChar chars with ⟨cs, rest, rfl, all, ends⟩
  rw [tokLoop_chars st all] at run
  cases rest with
  | nil =>
      rw [tokLoop, tokEnd, if_neg (by simp)] at run
      cases run
  | cons d rest =>
      rw [tokLoop_end rfl (ends d rfl)] at run
      cases run
      exact ⟨cs, d, rest, rfl, all, ends d rfl, rfl⟩

/-! The scanners where the parser calls them, at the first character of a lexeme. -/

def JsonCtx.strBegun (ctx : JsonCtx U A) : JsonCtx U A :=
  { ctx with st := .strIn, idx := ctx.idx + 1, v := .s (ctx.idx + 1) 0 }

/-- The flags of a string. -/
def JsonCtx.strFlags (ctx : JsonCtx U A) (body : List UInt8) : JsonFlags :=
  { ctx.flags with needUnescape := false }.ofString body

theorem jsonParseStr_closed (faces : Faces ctx.input ctx.idx (34 :: (body ++ 34 :: rest))) (closed : Closed body) :
    jsonParseStr ctx.strBegun = .ok (ctx.strBegun.strEnded (ctx.strFlags body) (ctx.idx + 1 + body.length)) := by
  rw [jsonParseStr]
  change strLoop (ctx.input.drop (ctx.idx + 1)) _ = _
  rw [faces.step.left]
  exact strLoop_closed closed rest _ rfl

theorem jsonParseStr_ok (faces : Faces ctx.input ctx.idx (34 :: chars)) (run : jsonParseStr ctx.strBegun = .ok ctx') :
    ∃ body rest flags, chars = body ++ 34 :: rest ∧ Closed body ∧
      ctx' = ctx.strBegun.strEnded flags (ctx.idx + 1 + body.length) := by
  rw [jsonParseStr] at run
  change strLoop (ctx.input.drop (ctx.idx + 1)) _ = _ at run
  rw [faces.step.left] at run
  rcases strLoop_ok (.inl (.inl rfl)) run with ⟨body, rest, flags, same, ended, closed, -⟩
  exact ⟨body, rest, flags, same, closed (.inl rfl), ended⟩

/-- The first character tells nothing about the type of a number. -/
def JsonCtx.numBegun (ctx : JsonCtx U A) : JsonCtx U A :=
  { ctx with st := .num, idx := ctx.idx + 1, flags.float := false, flags.scientific := false }

theorem jsonParseNum_eq (faces : Faces ctx.input ctx.idx (c :: chars)) (first : IsDigit c ∨ c = 45) :
    jsonParseNum { ctx with st := .numIn } = numLoop chars ctx.numBegun := by
  rw [jsonParseNum]
  change numLoop (ctx.input.drop ctx.idx) _ = _
  rw [faces.left, numLoop_first rfl first]
  rfl

theorem jsonParseNum_chars (faces : Faces ctx.input ctx.idx (c :: (cs ++ d :: rest))) (first : IsDigit c ∨ c = 45)
    (all : ∀ x ∈ cs, NumChar x) (ends : ¬ NumChar d) :
    jsonParseNum { ctx with st := .numIn } = .ok (ctx.numBegun.numEnded cs) := by
  rw [jsonParseNum_eq faces first, numLoop_chars rfl all, numLoop_end rfl ends]
  simp [JsonCtx.numEnded, JsonFlags.scan]

theorem jsonParseTok_eq (faces : Faces ctx.input ctx.idx (c :: chars)) (first : IsLetter c) :
    jsonParseTok { ctx with st := .tokIn } = tokLoop chars { ctx with st := .tok, idx := ctx.idx + 1 } := by
  rw [jsonParseTok]
  change tokLoop (ctx.input.drop ctx.idx) _ = _
  rw [faces.left, tokLoop_first rfl first]

theorem jsonParseTok_chars (faces : Faces ctx.input ctx.idx (c :: (cs ++ d :: rest))) (first : IsLetter c)
    (all : ∀ x ∈ cs, TokChar x) (ends : ¬ TokChar d) :
    jsonParseTok { ctx with st := .tokIn } = .ok (ctx.tokEnded (ctx.idx + cs.length)) := by
  rw [jsonParseTok_eq faces first, tokLoop_chars rfl all, tokLoop_end rfl ends]
  simp only [JsonCtx.tokEnded, Nat.add_right_comm ctx.idx 1, Nat.add_sub_cancel]

end MnCommon.JsonParser
