import Mathlib.Data.List.GetD
import MnCommon.JsonWriter.Writers

/-! `json_type_hint_str`: the type of a node as a string, in one of 16 buffers of 256 bytes
that take turns. -/

namespace MnCommon.JsonParser

open JsonWriter (printedNat length_printedNat)

/-- What is wrong with a write: it is not within the buffer, or its length is negative. -/
inductive HintFault where
  | outside
  | negative
  deriving DecidableEq, Repr

/-- What the formatter looks at. `v` are the bytes that it points to. -/
structure JsonNode where
  nest : Int32
  ty : UInt32
  v : Option (List UInt8)

/-- The static variables. -/
structure HintBufs where
  bufs : Nat → Nat → UInt8
  idx : Nat

/-- `buf` and `nwritten`. -/
structure HintStr where
  buf : Nat → UInt8
  nwritten : Int

/-- `JSON_TYPE_HINT_STR_BUFSZ`. -/
def typeHintStrBufsz : Int := 256

/-- The first `sz` bytes of `s` go to the buffer. -/
def memcpy (s : List UInt8) (offset sz : Int) (buf : Nat → UInt8) : Except HintFault (Nat → UInt8) :=
  if sz < 0 then
    .error .negative
  else if sz = 0 ∨ 0 ≤ offset ∧ offset + sz ≤ typeHintStrBufsz then
    .ok fun j => if offset ≤ j ∧ (j : Int) < offset + sz then s.getD (j - offset).toNat 0 else buf j
  else
    .error .outside

/-- `"% 3d:"`. -/
def hintLevel (nest : Int32) : List UInt8 :=
  let number := (if nest.toInt < 0 then 45 else 32) :: printedNat nest.toInt.natAbs
  List.replicate (3 - number.length) 32 ++ number ++ [58]

/-- `snprintf` into the buffer, which keeps room for the NUL. -/
def snprintf (text : List UInt8) (buf : Nat → UInt8) : Except HintFault HintStr := do
  let kept := text.take (typeHintStrBufsz - 1).toNat
  let buf ← memcpy (kept ++ [0]) 0 (kept.length + 1) buf
  return ⟨buf, text.length⟩

/-- `_COPY_ONE`. -/
def copyOne (s : List UInt8) (h : HintStr) : Except HintFault HintStr := do
  let tmp0 := min h.nwritten (typeHintStrBufsz - 1)
  let tmp1 := typeHintStrBufsz - tmp0
  let sz := min (s.length : Int) tmp1
  let buf ← memcpy s h.nwritten sz h.buf
  return ⟨buf, h.nwritten + sz⟩

def copyAll : List (List UInt8) → HintStr → Except HintFault HintStr
  | [], h => .ok h
  | s :: rest, h => do
      let h ← copyOne s h
      copyAll rest h

/-- `JSON_TYPE_HINT_*`, from the number of the type. -/
def typeHint (ty : UInt32) : UInt32 := 1 <<< ty

/-- The types with their texts, in the order of the source. -/
def typeHints : List (UInt32 × List UInt8) :=
  [(1, [111, 98, 106, 101, 99, 116, 124]), (2, [97, 114, 114, 97, 121, 124]),
    (3, [115, 116, 114, 105, 110, 103, 124]), (4, [105, 110, 116, 124]),
    (5, [102, 108, 111, 97, 116, 124]), (6, [98, 111, 111, 108, 101, 97, 110, 124]),
    (7, [110, 117, 108, 108, 124]), (18, [97, 110, 121, 124]),
    (19, [111, 110, 101, 111, 102, 124])]

/-- `JSON_ITEM`. -/
def jsonItem : UInt32 := 17

/-- The texts of the types that a node has. -/
def typePieces (ty : UInt32) : List (List UInt8) :=
  (typeHints.filter fun hint => ty &&& typeHint hint.1 ≠ 0).map Prod.snd

/-- The string that a pointer stands for ends in front of the first NUL. -/
def nameOf (v : List UInt8) : List UInt8 := v.takeWhile (· ≠ 0)

def itemPieces (n : JsonNode) : List (List UInt8) :=
  if n.ty &&& typeHint jsonItem ≠ 0 then
    match n.v with
    | some v => [[105, 116, 101, 109, 40], nameOf v, [41, 124]]
    | none => [[105, 116, 101, 109, 124]]
  else
    []

/-- A bar at the end is taken away, and the NUL put behind the rest. -/
def terminate (h : HintStr) : Except HintFault HintStr := do
  let nwritten := if 0 < h.nwritten ∧ h.buf (h.nwritten - 1).toNat = 124 then h.nwritten - 1 else h.nwritten
  let buf ← memcpy [0] nwritten 1 h.buf
  return ⟨buf, nwritten⟩

/-- One buffer. -/
def hinted (n : JsonNode) (buf : Nat → UInt8) : Except HintFault HintStr := do
  let h ← snprintf (hintLevel n.nest) buf
  let h ← copyAll (typePieces n.ty ++ itemPieces n) h
  terminate h

/-- Answers which of the buffers it is. -/
def jsonTypeHintStr (n : JsonNode) (s : HintBufs) : Except HintFault (Nat × HintBufs) := do
  let idx := if 16 ≤ s.idx then 0 else s.idx
  let h ← hinted n (s.bufs idx)
  return (idx, ⟨Function.update s.bufs idx h.buf, idx + 1⟩)

/-- Everything that is to be put into the buffer, without the NUL. -/
def hintText (n : JsonNode) : List UInt8 :=
  hintLevel n.nest ++ (typePieces n.ty ++ itemPieces n).flatten

/-- All writes are within the buffer, and what it holds afterwards has an end there. -/
def Contained (n : JsonNode) (s : HintBufs) : Prop :=
  ∃ i next, jsonTypeHintStr n s = .ok (i, next) ∧ i < 16 ∧ ∃ j < 256, next.bufs i j = 0

section

variable {text s : List UInt8} {h next : HintStr} {buf : Nat → UInt8}

/-- `memcpy` gets no negative length. -/
theorem copyOne_nonneg : copyOne s h ≠ .error .negative := by
  have length : 0 ≤ min (s.length : Int) (typeHintStrBufsz - min h.nwritten (typeHintStrBufsz - 1)) := by
    simp only [typeHintStrBufsz]
    omega
  rw [copyOne, memcpy, if_neg (by omega)]
  split
  · exact nofun
  · exact nofun

theorem copyAll_nonneg (pieces : List (List UInt8)) : copyAll pieces h ≠ .error .negative := by
  induction pieces generalizing h with
  | nil => exact nofun
  | cons s rest ih =>
      rw [copyAll]
      cases ran : copyOne s h with
      | error fault =>
          intro same
          cases fault with
          | outside => cases same
          | negative => exact copyOne_nonneg ran
      | ok next => exact ih

/-- The text in front of `nwritten`. -/
structure Holds (text : List UInt8) (h : HintStr) : Prop where
  nwritten : h.nwritten = text.length
  bytes : ∀ j < text.length, h.buf j = text.getD j 0

/-- What a piece adds to the text, of which the buffer takes `k` bytes. -/
theorem copyOne_takes (holds : Holds text h) {k : Nat} (within : text.length + k ≤ 256)
    (amount : min s.length (256 - min text.length 255) = k) :
    ∃ next, copyOne s h = .ok next ∧ next.nwritten = (text.length + k : Nat) ∧
      ∀ j < text.length + k, next.buf j = (text ++ s).getD j 0 := by
  have taken : min (s.length : Int) (typeHintStrBufsz - min h.nwritten (typeHintStrBufsz - 1)) = k := by
    rw [holds.nwritten]
    simp only [typeHintStrBufsz]
    omega
  have inside : (k : Int) = 0 ∨ 0 ≤ h.nwritten ∧ h.nwritten + k ≤ typeHintStrBufsz := by
    rw [holds.nwritten]
    simp only [typeHintStrBufsz]
    omega
  simp only [copyOne, taken, memcpy, if_neg (show ¬ (k : Int) < 0 by omega), if_pos inside, bind, Except.bind]
  refine ⟨_, rfl, ?_, ?_⟩
  · simp only [holds.nwritten, Int.natCast_add]
  · intro j less
    simp only [holds.nwritten]
    by_cases old : j < text.length
    · rw [if_neg (by omega), holds.bytes j old, List.getD_append _ _ _ _ old]
    · have offset : ((j : Int) - text.length).toNat = j - text.length := by omega
      rw [if_pos (by omega), List.getD_append_right _ _ _ _ (Nat.le_of_not_lt old), offset]

/-- A piece for which there is room. -/
theorem copyOne_fits (holds : Holds text h) (room : text.length + s.length ≤ 256) :
    ∃ next, copyOne s h = .ok next ∧ Holds (text ++ s) next := by
  rcases copyOne_takes (s := s) holds room (by omega) with ⟨next, ran, nwritten, bytes⟩
  rw [← List.length_append] at nwritten bytes
  exact ⟨next, ran, nwritten, bytes⟩

theorem copyAll_fits (pieces : List (List UInt8)) (holds : Holds text h)
    (room : text.length + pieces.flatten.length ≤ 256) :
    ∃ next, copyAll pieces h = .ok next ∧ Holds (text ++ pieces.flatten) next := by
  induction pieces generalizing text h with
  | nil => exact ⟨h, rfl, by rwa [List.flatten_nil, List.append_nil]⟩
  | cons s rest ih =>
      rw [List.flatten_cons, List.length_append] at room
      rcases copyOne_fits holds (s := s) (by omega) with ⟨second, one, holds'⟩
      rcases ih holds' (by rw [List.length_append]; omega) with ⟨next, others, holds''⟩
      refine ⟨next, ?_, ?_⟩
      · rw [copyAll, one]
        exact others
      · rwa [List.flatten_cons, ← List.append_assoc]

/-- A piece that has no room fills the buffer. -/
theorem copyOne_full (holds : Holds text h) (before : text.length < 256) (long : 256 ≤ text.length + s.length) :
    ∃ next, copyOne s h = .ok next ∧ next.nwritten = 256 ∧ ∀ j < 256, next.buf j = (text ++ s).getD j 0 := by
  have whole : text.length + (256 - text.length) = 256 := by omega
  rcases copyOne_takes holds (le_of_eq whole) (s := s) (by omega) with ⟨next, ran, nwritten, bytes⟩
  rw [whole] at nwritten bytes
  exact ⟨next, ran, nwritten, bytes⟩

/-- Behind a full buffer there is no place for a piece. -/
theorem copyOne_outside (full : h.nwritten = 256) (some : s ≠ []) : copyOne s h = .error .outside := by
  have positive := List.length_pos_of_ne_nil some
  have one : min (s.length : Int) (typeHintStrBufsz - min h.nwritten (typeHintStrBufsz - 1)) = 1 := by
    rw [full]
    simp only [typeHintStrBufsz]
    omega
  have wrong : ¬ ((1 : Int) = 0 ∨ 0 ≤ h.nwritten ∧ h.nwritten + 1 ≤ typeHintStrBufsz) := by
    rw [full]
    decide
  simp only [copyOne, one, memcpy, if_neg (show ¬ (1 : Int) < 0 by decide), if_neg wrong, bind, Except.bind]

theorem length_hintLevel (nest : Int32) : (hintLevel nest).length ≤ 21 := by
  have low := nest.le_toInt
  have high := nest.toInt_lt
  have short := @length_printedNat nest.toInt.natAbs (by omega)
  simp only [hintLevel, List.length_append, List.length_replicate, List.length_cons, List.length_nil]
  omega

theorem length_typePieces (ty : UInt32) : (typePieces ty).flatten.length ≤ 53 := by
  have all : ((typeHints.map Prod.snd).flatten).length = 53 := by decide
  have fewer : (typePieces ty).Sublist (typeHints.map Prod.snd) := List.filter_sublist.map _
  have shorter := fewer.flatten.length_le
  omega

theorem snprintf_holds (short : text.length ≤ 255) : ∃ h, snprintf text buf = .ok h ∧ Holds text h := by
  have kept : text.take (typeHintStrBufsz - 1).toNat = text := List.take_of_length_le short
  have inside : (text.length + 1 : Int) = 0 ∨ (0 : Int) ≤ 0 ∧ 0 + (text.length + 1 : Int) ≤ typeHintStrBufsz := by
    simp only [typeHintStrBufsz]
    omega
  simp only [snprintf, kept, memcpy, if_neg (show ¬ (text.length + 1 : Int) < 0 by omega), if_pos inside, bind,
    Except.bind]
  refine ⟨_, rfl, rfl, ?_⟩
  intro j less
  simp only
  rw [if_pos (by omega), Int.sub_zero, Int.toNat_natCast, List.getD_append _ _ _ _ less]

/-- There is room for the NUL, if need be in the place of a bar. -/
theorem terminate_fits (holds : Holds text h) (short : text.length ≤ 255 ∨
    text.length = 256 ∧ text.getD 255 0 = 124) : ∃ next, terminate h = .ok next ∧ ∃ j < 256, next.buf j = 0 := by
  have write : ∀ {nwritten : Int}, 0 ≤ nwritten → nwritten < 256 →
      ∃ buf, memcpy [0] nwritten 1 h.buf = .ok buf ∧ ∃ j < 256, buf j = 0 := by
    intro nwritten low high
    have inside : (1 : Int) = 0 ∨ 0 ≤ nwritten ∧ nwritten + 1 ≤ typeHintStrBufsz := by
      simp only [typeHintStrBufsz]
      omega
    rw [memcpy, if_neg (by decide), if_pos inside]
    refine ⟨_, rfl, nwritten.toNat, by omega, ?_⟩
    have here : ((nwritten.toNat : Int) - nwritten).toNat = 0 := by omega
    rw [if_pos (by omega), here]
    rfl
  have bounds : ∃ nwritten, (if 0 < h.nwritten ∧ h.buf (h.nwritten - 1).toNat = 124 then h.nwritten - 1
      else h.nwritten) = nwritten ∧ 0 ≤ nwritten ∧ nwritten < 256 := by
    refine ⟨_, rfl, ?_⟩
    rw [holds.nwritten]
    rcases short with short | ⟨full, bar⟩
    · split <;> omega
    · have last : h.buf (((text.length : Int) - 1).toNat) = 124 := by
        have place : ((text.length : Int) - 1).toNat = 255 := by omega
        rw [place, holds.bytes 255 (by omega), bar]
      rw [if_pos ⟨by omega, last⟩]
      omega
  rcases bounds with ⟨nwritten, chosen, low, high⟩
  rcases write low high with ⟨buf, wrote, ends⟩
  refine ⟨⟨buf, nwritten⟩, ?_, ends⟩
  rw [terminate]
  simp only [chosen, wrote]
  rfl

/-- The NUL behind a full buffer. -/
theorem terminate_outside (full : h.nwritten = 256) (other : h.buf 255 ≠ 124) : terminate h = .error .outside := by
  have stays : ¬ (0 < h.nwritten ∧ h.buf (h.nwritten - 1).toNat = 124) := by
    rw [full]
    exact fun both => other both.2
  have chosen : (if 0 < h.nwritten ∧ h.buf (h.nwritten - 1).toNat = 124 then h.nwritten - 1 else h.nwritten) = 256 := by
    rw [if_neg stays, full]
  have wrong : ¬ ((1 : Int) = 0 ∨ 0 ≤ (256 : Int) ∧ (256 : Int) + 1 ≤ typeHintStrBufsz) := by decide
  simp only [terminate, chosen, memcpy, if_neg (show ¬ (1 : Int) < 0 by decide), if_neg wrong, bind, Except.bind]

theorem copyAll_append (pieces more : List (List UInt8)) :
    copyAll (pieces ++ more) h = copyAll pieces h >>= copyAll more := by
  induction pieces generalizing h with
  | nil => rfl
  | cons s rest ih =>
      rw [List.cons_append, copyAll, copyAll]
      cases ran : copyOne s h with
      | error fault => rfl
      | ok next => exact ih

/-- Without a name there is little to write. -/
theorem itemPieces_cases (n : JsonNode) : (itemPieces n).flatten.length ≤ 5 ∨
    ∃ name, itemPieces n = [[105, 116, 101, 109, 40], name, [41, 124]] := by
  rw [itemPieces]
  split
  · cases n.v with
    | none => exact .inl (by decide)
    | some v => exact .inr ⟨_, rfl⟩
  · exact .inl (Nat.zero_le _)

/-- The closing bracket, or the NUL, of a name that is too long. -/
theorem closing_outside {name : List UInt8} (holds : Holds text h) (before : text.length < 254)
    (long : 256 < text.length + name.length + 2) :
    (copyAll [name, [41, 124]] h >>= terminate) = .error .outside := by
  by_cases fills : 256 ≤ text.length + name.length
  · rcases copyOne_full holds (by omega) fills with ⟨second, one, full, -⟩
    rw [copyAll, one]
    simp only [bind, Except.bind, copyAll, copyOne_outside full (List.cons_ne_nil _ _)]
  · rcases copyOne_fits (s := name) holds (by omega) with ⟨second, one, holds'⟩
    have length : (text ++ name).length = 255 := by
      rw [List.length_append]
      omega
    rcases copyOne_full (s := [41, 124]) holds' (by omega) (by rw [length]; decide) with ⟨third, two, full, bytes⟩
    have bracket : third.buf 255 ≠ 124 := by
      rw [bytes 255 (by decide), List.getD_append_right _ _ _ _ (le_of_eq length), length]
      decide
    rw [copyAll, one]
    simp only [bind, Except.bind, copyAll, two, terminate_outside full bracket]

/-- One call in a buffer. -/
theorem hinted_iff (n : JsonNode) (buf : Nat → UInt8) :
    (∃ h, hinted n buf = .ok h ∧ ∃ j < 256, h.buf j = 0) ↔ (hintText n).length ≤ 256 := by
  have level := length_hintLevel n.nest
  have types := length_typePieces n.ty
  rcases @snprintf_holds (hintLevel n.nest) buf (by omega) with ⟨start, printed, holds⟩
  have split : (hintText n).length =
      (hintLevel n.nest).length + (typePieces n.ty).flatten.length + (itemPieces n).flatten.length := by
    rw [hintText, List.flatten_append, List.length_append, List.length_append, Nat.add_assoc]
  constructor
  · rintro ⟨h, ran, -⟩
    by_contra long
    rcases itemPieces_cases n with few | ⟨name, named⟩
    · omega
    · have total : (itemPieces n).flatten.length = 5 + name.length + 2 := by
        rw [named]
        simp only [List.flatten_cons, List.flatten_nil, List.length_append, List.length_cons, List.length_nil]
        omega
      have pieces : typePieces n.ty ++ itemPieces n =
          (typePieces n.ty ++ [[105, 116, 101, 109, 40]]) ++ [name, [41, 124]] := by
        rw [named, List.append_assoc]
        rfl
      have begun : ((typePieces n.ty ++ [[105, 116, 101, 109, 40]]).flatten).length =
          (typePieces n.ty).flatten.length + 5 := by
        rw [List.flatten_append, List.length_append]
        rfl
      rcases copyAll_fits _ holds (by rw [begun]; omega) with ⟨second, front, holds'⟩
      have fails := @closing_outside _ second name holds' (by rw [List.length_append, begun]; omega)
        (by rw [List.length_append, begun]; omega)
      rw [hinted, printed, pieces] at ran
      simp only [bind, Except.bind, copyAll_append, front] at ran fails
      rw [fails] at ran
      cases ran
  · intro short
    rcases copyAll_fits (typePieces n.ty ++ itemPieces n) holds
      (by rw [List.flatten_append, List.length_append]; omega) with ⟨second, all, holds'⟩
    have room : (hintText n).length ≤ 255 ∨ (hintText n).length = 256 ∧ (hintText n).getD 255 0 = 124 := by
      rcases itemPieces_cases n with few | ⟨name, named⟩
      · exact .inl (by omega)
      · rcases Nat.lt_or_eq_of_le short with less | full
        · exact .inl (Nat.le_of_lt_succ less)
        · refine .inr ⟨full, ?_⟩
          have parts : hintText n =
              (hintLevel n.nest ++ (typePieces n.ty).flatten ++ [105, 116, 101, 109, 40] ++ name) ++ [41, 124] := by
            rw [hintText, named, List.flatten_append]
            simp only [List.flatten_cons, List.flatten_nil, List.append_nil, List.append_assoc]
          rw [parts, List.length_append] at full
          have front : (hintLevel n.nest ++ (typePieces n.ty).flatten ++ [105, 116, 101, 109, 40] ++ name).length =
              254 := Nat.add_right_cancel full
          rw [parts, List.getD_append_right _ _ _ _ (by omega), front]
          rfl
    rcases terminate_fits holds' room with ⟨h, ended, within⟩
    refine ⟨h, ?_, within⟩
    rw [hinted, printed]
    simp only [bind, Except.bind, all]
    exact ended

end

theorem hinted_nonneg (n : JsonNode) (buf : Nat → UInt8) : hinted n buf ≠ .error .negative := by
  have level := length_hintLevel n.nest
  rcases @snprintf_holds (hintLevel n.nest) buf (by omega) with ⟨start, printed, -⟩
  rw [hinted, printed]
  simp only [bind, Except.bind]
  cases ran : copyAll (typePieces n.ty ++ itemPieces n) start with
  | error fault =>
      intro same
      cases fault with
      | outside => cases same
      | negative => exact copyAll_nonneg _ ran
  | ok h =>
      simp only [terminate, memcpy, if_neg (show ¬ (1 : Int) < 0 by decide), bind, Except.bind]
      generalize (if 0 < h.nwritten ∧ h.buf (h.nwritten - 1).toNat = 124 then h.nwritten - 1 else h.nwritten) = last
      split
      · next ends =>
          split at ends
          · cases ends
          · cases ends
            exact nofun
      · exact nofun

theorem jsonTypeHintStr_eq (n : JsonNode) (s : HintBufs) : ∃ i < 16, jsonTypeHintStr n s =
    (hinted n (s.bufs i)).map fun h => (i, ⟨Function.update s.bufs i h.buf, i + 1⟩) := by
  refine ⟨if 16 ≤ s.idx then 0 else s.idx, by split <;> omega, ?_⟩
  rw [jsonTypeHintStr]
  cases hinted n (s.bufs (if 16 ≤ s.idx then 0 else s.idx)) with
  | error fault => rfl
  | ok h => rfl

theorem contained_iff (n : JsonNode) (s : HintBufs) : Contained n s ↔ (hintText n).length ≤ 256 := by
  rcases jsonTypeHintStr_eq n s with ⟨i, low, ran⟩
  rw [Contained, ran, ← hinted_iff n (s.bufs i)]
  constructor
  · rintro ⟨k, next, same, -, ends⟩
    rcases Memory.of_map_ok same with ⟨h, one, pair⟩
    cases pair
    simp only [Function.update_self] at ends
    exact ⟨h, one, ends⟩
  · rintro ⟨h, one, ends⟩
    rw [one]
    refine ⟨i, _, rfl, low, ?_⟩
    simp only [Function.update_self]
    exact ends

/-- No length is negative, and all writes are within the buffer just when the whole text has at
most 256 characters, a bar that gives way to the NUL included. -/
theorem json_type_hint_str_contained (n : JsonNode) (s : HintBufs) :
    jsonTypeHintStr n s ≠ .error .negative ∧ (Contained n s ↔ (hintText n).length ≤ 256) := by
  refine ⟨?_, contained_iff n s⟩
  rcases jsonTypeHintStr_eq n s with ⟨i, -, ran⟩
  rw [ran]
  intro same
  cases one : hinted n (s.bufs i) with
  | error fault =>
      rw [one] at same
      cases same
      exact hinted_nonneg n (s.bufs i) one
  | ok h =>
      rw [one] at same
      cases same

/-- An item whose name has 246 characters. -/
def longItem : JsonNode := ⟨0, typeHint jsonItem, some (List.replicate 246 97)⟩

theorem long_name_escapes : ¬ ∀ (n : JsonNode) (s : HintBufs), Contained n s := by
  intro all
  have short := (contained_iff longItem ⟨fun _ _ => 0, 0⟩).mp (all longItem _)
  have name : nameOf (List.replicate 246 97) = List.replicate 246 97 := by
    rw [nameOf, List.takeWhile_eq_self_iff]
    intro c here
    rw [List.eq_of_mem_replicate here]
    rfl
  have item : itemPieces longItem = [[105, 116, 101, 109, 40], List.replicate 246 97, [41, 124]] := by
    rw [itemPieces, if_pos (by decide)]
    simp only [longItem, name]
  have types : typePieces longItem.ty = [] := by decide
  have level : (hintLevel longItem.nest).length = 4 := by decide
  rw [hintText, item, types] at short
  simp only [List.length_append, level, List.nil_append, List.flatten_cons, List.flatten_nil, List.length_cons,
    List.length_nil, List.length_replicate] at short
  exact absurd short (by decide)

end MnCommon.JsonParser
