import MnCommon.Grammars.Rfc7159

/-! The escapes of JSON strings in `bytes.c`. -/

namespace MnCommon.Bytes

open Grammars (Closed)

/-- A string with a NUL behind it, which its size counts. -/
structure Strz where
  chars : List UInt8
  deriving DecidableEq

def Strz.data (s : Strz) : List UInt8 := s.chars ++ [0]

def Strz.sz (s : Strz) : Nat := s.data.length

/-- What `bytes_json_escape` writes for a character. -/
def escaped (ch : UInt8) : List UInt8 :=
  if ch = 92 ∨ ch = 34 ∨ ch = 47 then [92, ch]
  else if ch = 8 then [92, 98]
  else if ch = 12 then [92, 102]
  else if ch = 10 then [92, 110]
  else if ch = 13 then [92, 114]
  else if ch = 9 then [92, 116]
  else [ch]

/-- The last byte that the loop has written is overwritten with a NUL. -/
def bytesJsonEscape (src : Strz) : Strz := ⟨(src.data.flatMap escaped).dropLast⟩

def unescaped (ch : UInt8) : UInt8 :=
  if ch = 98 then 8
  else if ch = 102 then 12
  else if ch = 110 then 10
  else if ch = 114 then 13
  else if ch = 116 then 9
  else ch

/-- The loop of `bytes_json_unescape`, which stops at a backslash without a character. -/
def unescapeLoop : List UInt8 → List UInt8
  | [] => []
  | 92 :: [] => []
  | 92 :: ch :: rest => unescaped ch :: unescapeLoop rest
  | ch :: rest => ch :: unescapeLoop rest

def bytesJsonUnescape (src : Strz) : Strz := ⟨(unescapeLoop src.data).dropLast⟩

@[simp] theorem Strz.sz_eq (s : Strz) : s.sz = s.chars.length + 1 := by simp [Strz.sz, Strz.data]

theorem escape_chars (src : Strz) : (bytesJsonEscape src).chars = src.chars.flatMap escaped := by
  simp [bytesJsonEscape, Strz.data, escaped]

theorem unescapeLoop_plain {ch : UInt8} (plain : ch ≠ 92) (rest : List UInt8) :
    unescapeLoop (ch :: rest) = ch :: unescapeLoop rest := by
  cases rest <;> simp [unescapeLoop, plain]

theorem unescapeLoop_escaped (ch : UInt8) (rest : List UInt8) :
    unescapeLoop (escaped ch ++ rest) = ch :: unescapeLoop rest := by
  rw [escaped]
  split_ifs with marked back form line carriage tab
  · rcases marked with rfl | rfl | rfl <;> rfl
  · rw [back]; rfl
  · rw [form]; rfl
  · rw [line]; rfl
  · rw [carriage]; rfl
  · rw [tab]; rfl
  · exact unescapeLoop_plain (fun slash => marked (.inl slash)) rest

theorem unescapeLoop_flatMap (chars rest : List UInt8) :
    unescapeLoop (chars.flatMap escaped ++ rest) = chars ++ unescapeLoop rest := by
  induction chars with
  | nil => rfl
  | cons ch chars ih =>
      rw [List.flatMap_cons, List.append_assoc, unescapeLoop_escaped, ih]
      rfl

/-- What is escaped is read back. -/
theorem unescape_escape (src : Strz) : bytesJsonUnescape (bytesJsonEscape src) = src := by
  rw [bytesJsonUnescape, Strz.data, escape_chars, unescapeLoop_flatMap]
  have ends : unescapeLoop [0] = [0] := rfl
  rw [ends, List.dropLast_concat]

theorem unescapeLoop_clean {chars : List UInt8} (clean : 92 ∉ chars) (rest : List UInt8) :
    unescapeLoop (chars ++ rest) = chars ++ unescapeLoop rest := by
  induction chars with
  | nil => rfl
  | cons ch chars ih =>
      rw [List.mem_cons, not_or] at clean
      rw [List.cons_append, unescapeLoop_plain (fun slash => clean.1 slash.symm), ih clean.2]
      rfl

theorem Closed.append {body body' : List UInt8} (closed : Closed body) (closed' : Closed body') :
    Closed (body ++ body') := by
  induction closed with
  | nil => exact closed'
  | char quote slash _ ih => exact .char quote slash ih
  | escape c _ ih => exact .escape c ih

theorem escaped_closed (ch : UInt8) : Closed (escaped ch) := by
  rw [escaped]
  split_ifs with marked
  · exact .escape ch .nil
  · exact .escape 98 .nil
  · exact .escape 102 .nil
  · exact .escape 110 .nil
  · exact .escape 114 .nil
  · exact .escape 116 .nil
  · exact .char (fun quote => marked (.inr (.inl quote))) (fun slash => marked (.inl slash)) .nil

/-- No quotation mark of the result ends a string. -/
theorem escape_closed (src : Strz) : Closed (bytesJsonEscape src).chars := by
  rw [escape_chars]
  induction src.chars with
  | nil => exact .nil
  | cons ch chars ih =>
      rw [List.flatMap_cons]
      exact Closed.append (escaped_closed ch) ih

end MnCommon.Bytes
