import MnCommon.Bytes.Base64
import MnCommon.Bytes.Escape
import MnCommon.Bytes.Fasthash

/-! The strings of `bytes.c` with their cached hash, and what its functions do to the
bytes of one string. -/

namespace MnCommon.ByteStrings

open Bytes

/-- `data` is all that has been allocated, which may be more than the string takes. -/
structure MnBytes where
  nref : Int
  sz : Nat
  hash : UInt64
  data : List UInt8
  fits : sz ≤ data.length
  deriving DecidableEq, Repr

/-- The bytes of the string. -/
def MnBytes.content (s : MnBytes) : List UInt8 := s.data.take s.sz

/-- `memcpy` to `data + off`. -/
def copyInto (data : List UInt8) (off : Nat) : List UInt8 → List UInt8
  | [] => data
  | c :: rest => copyInto (data.set off c) (off + 1) rest

/-- `data[j - 1] = '\0'`. The byte in front of the data is the last one of the hash, which
all functions that may write there set to zero right after that. -/
def putNul (j : Nat) (data : List UInt8) : List UInt8 := if j = 0 then data else data.set (j - 1) 0

variable {data : List UInt8} {s : MnBytes}

@[simp] theorem length_copyInto (data : List UInt8) (off : Nat) (bytes : List UInt8) :
    (copyInto data off bytes).length = data.length := by
  induction bytes generalizing data off with
  | nil => rfl
  | cons c rest ih => rw [copyInto, ih, List.length_set]

@[simp] theorem length_putNul (j : Nat) (data : List UInt8) : (putNul j data).length = data.length := by
  rw [putNul]
  split
  · rfl
  · exact List.length_set

/-- Bytes that are copied to where they fit. -/
theorem copyInto_eq (front old back bytes : List UInt8) (lengths : bytes.length = old.length) :
    copyInto (front ++ (old ++ back)) front.length bytes = front ++ (bytes ++ back) := by
  induction bytes generalizing front old with
  | nil =>
      obtain rfl : old = [] := List.length_eq_zero_iff.mp lengths.symm
      rfl
  | cons c rest ih =>
      cases old with
      | nil => cases lengths
      | cons d old =>
          have next := ih (front ++ [c]) old (Nat.succ.inj lengths)
          rw [List.length_append, List.length_singleton, List.append_assoc, List.append_assoc] at next
          rw [copyInto, List.cons_append, List.set_append_right _ _ (Nat.le_refl _), Nat.sub_self]
          exact next

/-- Bytes that are copied to the front of the data. -/
theorem copyInto_front {bytes : List UInt8} (short : bytes.length ≤ data.length) :
    copyInto data 0 bytes = bytes ++ data.drop bytes.length := by
  have copied := copyInto_eq [] (data.take bytes.length) (data.drop bytes.length) bytes (List.length_take_of_le short).symm
  rwa [List.nil_append, List.take_append_drop, List.nil_append, List.length_nil] at copied

theorem take_copyInto {bytes : List UInt8} (short : bytes.length ≤ data.length) :
    (copyInto data 0 bytes).take bytes.length = bytes := by
  rw [copyInto_front short, List.take_left]

theorem copyInto_append (data : List UInt8) (off : Nat) (xs ys : List UInt8) :
    copyInto data off (xs ++ ys) = copyInto (copyInto data off xs) (off + xs.length) ys := by
  induction xs generalizing data off with
  | nil => rfl
  | cons x xs ih =>
      rw [List.cons_append, copyInto, copyInto, ih, List.length_cons, Nat.add_assoc, Nat.add_comm 1]

/-- Nothing changes behind bytes that are copied to the front. -/
theorem drop_copyInto {bytes : List UInt8} {off : Nat} (short : bytes.length ≤ off) (fits : off ≤ data.length) :
    (copyInto data 0 bytes).drop off = data.drop off := by
  have behind : off = bytes.length + (off - bytes.length) := by omega
  rw [copyInto_front (short.trans fits), behind, ← List.drop_drop, List.drop_left, List.drop_drop]

/-- A NUL that is written over one. -/
theorem putNul_copyInto {bytes : List UInt8} (short : bytes.length + 1 ≤ data.length) :
    putNul (bytes.length + 1) (copyInto data 0 (bytes ++ [0])) = copyInto data 0 (bytes ++ [0]) := by
  have length : (bytes ++ [(0 : UInt8)]).length = bytes.length + 1 := List.length_append
  rw [putNul, if_neg (Nat.succ_ne_zero _), Nat.add_sub_cancel, copyInto_front (length.trans_le short),
    List.append_assoc, List.set_append_right _ _ (Nat.le_refl _), Nat.sub_self]
  rfl

theorem take_putNul {bytes : List UInt8} (short : bytes.length + 1 ≤ data.length) :
    (putNul (bytes.length + 1) (copyInto data 0 (bytes ++ [0]))).take (bytes.length + 1) = bytes ++ [0] := by
  have length : (bytes ++ [(0 : UInt8)]).length = bytes.length + 1 := List.length_append
  rw [putNul_copyInto short, ← length]
  exact take_copyInto (length.trans_le short)

theorem getD_of_drop {src : Nat} {c : UInt8} {rest : List UInt8} (ahead : data.drop src = c :: rest) :
    data.getD src 0 = c := by
  rw [List.getD_eq_getElem?_getD, ← Nat.add_zero src, ← List.getElem?_drop, ahead]
  rfl

theorem drop_succ {src : Nat} {c : UInt8} {rest : List UInt8} (ahead : data.drop src = c :: rest) :
    data.drop (src + 1) = rest := by
  rw [← List.drop_drop, ahead]
  rfl

theorem length_unescapeLoop (chars : List UInt8) : (unescapeLoop chars).length ≤ chars.length := by
  induction chars using unescapeLoop.induct with
  | case1 => exact Nat.le_refl _
  | case2 => exact Nat.zero_le _
  | case3 ch rest ih =>
      rw [unescapeLoop, List.length_cons, List.length_cons, List.length_cons]
      omega
  | case4 ch rest plain other ih =>
      rw [unescapeLoop, List.length_cons, List.length_cons]
      · omega
      · exact plain
      · exact other

theorem length_content (s : MnBytes) : s.content.length = s.sz := List.length_take_of_le s.fits

theorem size_of_ends {s : MnBytes} {bytes : List UInt8} {c : UInt8} (ends : s.content = bytes ++ [c]) :
    s.sz = bytes.length + 1 := by
  rw [← length_content, ends, List.length_append, List.length_singleton]

def bytesJsonUnescape (s : MnBytes) : MnBytes :=
  let out := unescapeLoop s.content
  { s with
    sz := out.length
    hash := 0
    data := putNul out.length (copyInto s.data 0 out)
    fits := by
      have short := length_unescapeLoop s.content
      rw [length_content] at short
      rw [length_putNul, length_copyInto]
      exact short.trans s.fits }

/-- On strings that end with a NUL it does what it does to their characters. -/
theorem jsonUnescape_content {z : Strz} (same : s.content = z.data) (filled : unescapeLoop z.data ≠ []) :
    (bytesJsonUnescape s).content = (Bytes.bytesJsonUnescape z).data := by
  have short := length_unescapeLoop s.content
  rw [length_content] at short
  have copied := take_copyInto (short.trans s.fits)
  have positive := List.length_pos_iff.mpr filled
  change (putNul (unescapeLoop s.content).length (copyInto s.data 0 (unescapeLoop s.content))).take
    (unescapeLoop s.content).length = (unescapeLoop z.data).dropLast ++ [0]
  rw [same] at copied ⊢
  rw [putNul, if_neg (Nat.ne_of_gt positive), List.take_set, copied]
  rcases (List.eq_nil_or_concat (unescapeLoop z.data)).resolve_left filled with ⟨front, last, shape⟩
  rw [shape, List.concat_eq_append, List.length_append, List.length_singleton, Nat.add_sub_cancel,
    List.set_append_right _ _ (Nat.le_refl _), Nat.sub_self, List.dropLast_concat]
  rfl

/-- Every byte of the string becomes another one. -/
def MnBytes.replaced (s : MnBytes) (f : UInt8 → UInt8) : MnBytes :=
  { s with
    hash := 0
    data := copyInto s.data 0 (s.content.map f)
    fits := by
      rw [length_copyInto]
      exact s.fits }

theorem replaced_content (s : MnBytes) (f : UInt8 → UInt8) : (s.replaced f).content = s.content.map f := by
  have length : (s.content.map f).length = s.sz := by rw [List.length_map, length_content]
  have copied := take_copyInto (length.trans_le s.fits)
  rwa [length] at copied

/-- A byte that one pair has changed may be changed again by a later one. -/
def bytesTr (pairs : List (UInt8 × UInt8)) (s : MnBytes) : MnBytes :=
  s.replaced fun c => pairs.foldl (fun c pair => if c = pair.1 then pair.2 else c) c

def tolower (c : UInt8) : UInt8 := if 65 ≤ c ∧ c ≤ 90 then c + 32 else c

def toupper (c : UInt8) : UInt8 := if 97 ≤ c ∧ c ≤ 122 then c - 32 else c

def bytesSetLower (s : MnBytes) : MnBytes := s.replaced tolower

def bytesSetUpper (s : MnBytes) : MnBytes := s.replaced toupper

def bytesMemset (c : UInt8) (s : MnBytes) : MnBytes := s.replaced fun _ => c

/-- For strings that are not empty. -/
def bytesMemsetz (c : UInt8) (s : MnBytes) : MnBytes :=
  { s with
    hash := 0
    data := putNul s.sz (copyInto s.data 0 (List.replicate (s.sz - 1) c))
    fits := by
      rw [length_putNul, length_copyInto]
      exact s.fits }

/-- The value of a hexadecimal digit. -/
def hexOf (c : UInt8) : Option UInt8 :=
  if 48 ≤ c ∧ c ≤ 57 then some (c - 48)
  else if 65 ≤ c ∧ c ≤ 70 then some (c - 55)
  else if 97 ≤ c ∧ c ≤ 102 then some (c - 87)
  else none

/-- `*dst` after the two characters behind a percent sign. A character that is no
digit leaves `*dst` as it is. -/
def percent (high low dst : UInt8) : UInt8 :=
  let dst := match hexOf high with
    | some d => d <<< 4
    | none => dst
  match hexOf low with
    | some d => dst ||| d
    | none => dst

/-- What is written to `*dst` for the bytes at `src`, and where the bytes behind them are. -/
def unquoted (sz src dst : Nat) (data : List UInt8) : UInt8 × Nat :=
  if data.getD src 0 = 37 ∧ src + 2 < sz then
    (percent (data.getD (src + 1) 0) (data.getD (src + 2) 0) (data.getD dst 0), src + 3)
  else
    (data.getD src 0, src + 1)

/-- The same in `bytes_urldecode`, where a plus sign is a blank. -/
def unquotedPlus (sz src dst : Nat) (data : List UInt8) : UInt8 × Nat :=
  if data.getD src 0 = 43 then (32, src + 1) else unquoted sz src dst data

/-- The loop of `bytes_urldecode` and `bytes_brushdown`, over the indices `src` and `dst`.
A byte of the kind `dropped` is overwritten by the next one. -/
def rewriteLoop (read : Nat → Nat → List UInt8 → UInt8 × Nat) (dropped : UInt8 → Bool) (sz : Nat) :
    Nat → Nat → Nat → List UInt8 → Nat × List UInt8
  | 0, _, dst, data => (dst, data)
  | fuel + 1, src, dst, data =>
      if src < sz then
        rewriteLoop read dropped sz fuel (read src dst data).2
          (if dropped (read src dst data).1 then dst else dst + 1) (data.set dst (read src dst data).1)
      else
        (dst, data)

theorem unquoted_further (sz src dst : Nat) (data : List UInt8) : src < (unquoted sz src dst data).2 := by
  rw [unquoted]
  split
  · exact Nat.lt_add_of_pos_right (by decide)
  · exact Nat.lt_succ_self src

theorem unquotedPlus_further (sz src dst : Nat) (data : List UInt8) : src < (unquotedPlus sz src dst data).2 := by
  rw [unquotedPlus]
  split
  · exact Nat.lt_succ_self src
  · exact unquoted_further sz src dst data

theorem rewriteLoop_fits {read : Nat → Nat → List UInt8 → UInt8 × Nat} (further : ∀ src dst data, src < (read src dst data).2)
    (dropped : UInt8 → Bool) (sz fuel src dst : Nat) (data : List UInt8) (behind : dst ≤ src) (inside : dst ≤ sz) :
    (rewriteLoop read dropped sz fuel src dst data).1 ≤ sz ∧
      (rewriteLoop read dropped sz fuel src dst data).2.length = data.length := by
  induction fuel generalizing src dst data with
  | zero => exact ⟨inside, rfl⟩
  | succ fuel ih =>
      rw [rewriteLoop]
      split
      next more =>
        have on := further src dst data
        have next : ∀ d, d = dst ∨ d = dst + 1 →
            (rewriteLoop read dropped sz fuel (read src dst data).2 d (data.set dst (read src dst data).1)).1 ≤ sz ∧
              (rewriteLoop read dropped sz fuel (read src dst data).2 d (data.set dst (read src dst data).1)).2.length =
                data.length := by
          intro d either
          have kept := ih (read src dst data).2 d (data.set dst (read src dst data).1) (by omega) (by omega)
          rwa [List.length_set] at kept
        apply next
        split
        · exact .inl rfl
        · exact .inr rfl
      next => exact ⟨inside, rfl⟩

/-- What the loop leaves, with a NUL at its end. -/
def MnBytes.rewritten (s : MnBytes) (read : Nat → Nat → List UInt8 → UInt8 × Nat) (dropped : UInt8 → Bool)
    (further : ∀ src dst data, src < (read src dst data).2) : MnBytes :=
  { s with
    sz := (rewriteLoop read dropped s.sz s.sz 0 0 s.data).1
    hash := 0
    data := putNul (rewriteLoop read dropped s.sz s.sz 0 0 s.data).1 (rewriteLoop read dropped s.sz s.sz 0 0 s.data).2
    fits := by
      rcases rewriteLoop_fits further dropped s.sz s.sz 0 0 s.data (Nat.le_refl 0) (Nat.zero_le _) with ⟨short, length⟩
      rw [length_putNul, length]
      exact short.trans s.fits }

def bytesUrldecode (s : MnBytes) : MnBytes :=
  s.rewritten (unquotedPlus s.sz) (fun _ => false) (unquotedPlus_further s.sz)

def bytesBrushdown (s : MnBytes) : MnBytes := s.rewritten (unquoted s.sz) (fun c => c = 32) (unquoted_further s.sz)

/-- The loop of `bytes_rstrip_blanks` below the index; what it leaves is the size and the
bytes. -/
def rstripLoop : Nat → List UInt8 → Nat × List UInt8
  | 0, data => (1, data)
  | idx + 1, data =>
      if data.getD idx 0 = 32 ∨ data.getD idx 0 = 10 ∨ data.getD idx 0 = 9 then rstripLoop idx (data.set idx 0)
      else (idx + 2, data.set (idx + 1) 0)

theorem rstripLoop_fits (idx : Nat) (data : List UInt8) :
    (rstripLoop idx data).1 ≤ idx + 1 ∧ (rstripLoop idx data).2.length = data.length := by
  induction idx generalizing data with
  | zero => exact ⟨Nat.le_refl 1, rfl⟩
  | succ idx ih =>
      rw [rstripLoop]
      split
      · have next := ih (data.set idx 0)
        rw [List.length_set] at next
        exact ⟨next.1.trans (Nat.le_succ _), next.2⟩
      · exact ⟨Nat.le_refl _, List.length_set⟩

/-- The loop starts below the last byte; an empty string stays empty. -/
def bytesRstripBlanks (s : MnBytes) : MnBytes :=
  if filled : 0 < s.sz then
    { s with
      sz := (rstripLoop (s.sz - 1) s.data).1
      hash := 0
      data := (rstripLoop (s.sz - 1) s.data).2
      fits := by
        rcases rstripLoop_fits (s.sz - 1) s.data with ⟨short, length⟩
        have fits := s.fits
        rw [length]
        omega }
  else { s with hash := 0 }

/-- RFC 3986 does not reserve it. -/
def unreserved (c : UInt8) : Bool :=
  48 ≤ c ∧ c ≤ 57 ∨ 65 ≤ c ∧ c ≤ 90 ∨ 97 ≤ c ∧ c ≤ 122 ∨ c = 45 ∨ c = 46 ∨ c = 95 ∨ c = 126

def hexDigit (cc : UInt8) : UInt8 := if cc < 10 then 48 + cc else 65 + cc - 10

def urlencoded (c : UInt8) : List UInt8 :=
  if unreserved c then [c] else [37, hexDigit (c >>> 4), hexDigit (c &&& 15)]

/-- The bytes that `urlencode_reserved` writes; the index is an `unsigned`. -/
def putWrapped (data : List UInt8) (j : Nat) : List UInt8 → List UInt8
  | [] => data
  | c :: rest => putWrapped (data.set (j % 2 ^ 32) c) (j + 1) rest

@[simp] theorem length_putWrapped (data : List UInt8) (j : Nat) (bytes : List UInt8) :
    (putWrapped data j bytes).length = data.length := by
  induction bytes generalizing data j with
  | nil => rfl
  | cons c rest ih => rw [putWrapped, ih, List.length_set]

theorem length_urlencoded (bytes : List UInt8) : (bytes.flatMap urlencoded).length ≤ 3 * bytes.length := by
  induction bytes with
  | nil => exact Nat.le_refl 0
  | cons c rest ih =>
      have one : (urlencoded c).length ≤ 3 := by
        rw [urlencoded]
        split
        · exact Nat.le_add_left 1 2
        · exact Nat.le_refl 3
      rw [List.flatMap_cons, List.length_append, List.length_cons]
      omega

/-- `urlencode_reserved` into a string with room for the bytes. -/
def MnBytes.urlencodeReserved (dst : MnBytes) (bytes : List UInt8) (room : 3 * bytes.length + 1 ≤ dst.sz) : MnBytes :=
  { dst with
    sz := ((bytes.flatMap urlencoded).length + 1) % 2 ^ 32
    hash := 0
    data := putWrapped dst.data 0 (bytes.flatMap urlencoded ++ [0])
    fits := by
      have short := length_urlencoded bytes
      have fits := dst.fits
      have wrapped := Nat.mod_le ((bytes.flatMap urlencoded).length + 1) (2 ^ 32)
      rw [length_putWrapped]
      omega }

/-- `bytes_copy` and `bytes_copyz` do not reset the hash. -/
def MnBytes.overwritten (dst : MnBytes) (bytes : List UInt8) (off : Nat) : MnBytes :=
  { dst with
    data := copyInto dst.data off bytes
    fits := by
      rw [length_copyInto]
      exact dst.fits }

/-- `bytes_base64_decode_url` up to the call of `bytes_hash`. With a size of zero the NUL
is put into the last byte of the hash. -/
def MnBytes.base64Decoded (s : MnBytes) : MnBytes :=
  if filled : 0 < s.sz then
    { s with
      sz := (mnbase64DecodeUrlStdInplace s.data (s.sz - 1)).2.1 + 1
      data := (mnbase64DecodeUrlStdInplace s.data (s.sz - 1)).2.2.set (mnbase64DecodeUrlStdInplace s.data (s.sz - 1)).2.1 0
      fits := by
        have short := mnbase64DecodeUrlStdInplace_sz s.data (s.sz - 1)
        have fits := s.fits
        rw [List.length_set, mnbase64DecodeUrlStdInplace_length]
        omega }
  else { s with hash := s.hash &&& 0x00ffffffffffffff }

end MnCommon.ByteStrings
