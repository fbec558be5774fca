import MnCommon.Base64.RoundTrip
import MnCommon.ByteStrings.Cache

/-! What `bytes_base64_encode_url_str` and `bytes_base64_decode_url` make of a string. -/

namespace MnCommon.ByteStrings

open Base64 Memory Radix
open Bytes (alphabetUrlStd codesUrlStd encodeAll encodeAll_length)

variable {system : Allocator MnBytes} {s next : BytesStore} {x y : MnBytes} {p : Ptr} {a : Addr} {data src : List UInt8}

theorem encodeAll_eq (src : List UInt8) : encodeAll src = encodeChars alphabetUrlStd src := by
  fun_induction encodeAll src with
  | case1 => rfl
  | case2 i0 => rfl
  | case3 i0 i1 => rfl
  | case4 i0 i1 i2 rest ih =>
      rw [encodeChars, ih]
      rfl

/-- Reading four characters at once does what reading them one by one does. -/
theorem decodeLoop_at_once (count i dstsz : Nat) (data : List UInt8) :
    Bytes.decodeLoop count i dstsz data = Base64.decodeLoop codesUrlStd shared count i dstsz data := by
  induction count generalizing i dstsz data with
  | zero => rfl
  | succ count ih =>
      have steady := steady_shared
      rw [Bytes.decodeLoop, Base64.decodeLoop]
      dsimp only
      rw [steady.behind_one (k := 1) (by decide), steady.behind_one (k := 2) (by decide),
        steady.behind_two (k := 2) (by decide), steady.behind_two (k := 3) (by decide), ih]
      rfl

theorem decodeUrlStdInplace_eq (data : List UInt8) (sz : Nat) :
    Bytes.mnbase64DecodeUrlStdInplace data sz = Base64.mnbase64DecodeUrlStdInplace data sz := by
  rw [Bytes.mnbase64DecodeUrlStdInplace, decodeLoop_at_once]
  rfl

/-- The size that `bytes_base64_encode_url_str` reckons. -/
theorem reckoned (n : Nat) : (n + if n % 3 ≠ 0 then 3 - n % 3 else 0) * 4 / 3 = (n + 2) / 3 * 4 := by
  split <;> omega

/-- The encoder wants one group more for bytes that fill their groups. -/
theorem encode_refuses_iff (src : List UInt8) :
    Bytes.mnbase64EncodeUrlStd src ((src.length + 2) / 3 * 4) = none ↔ src.length % 3 = 0 := by
  rw [Bytes.mnbase64EncodeUrlStd]
  split
  next small => exact iff_of_true rfl (by omega)
  next room => exact iff_of_false nofun (by omega)

/-- A NUL behind bytes at the front of the data. -/
theorem take_ended {bytes : List UInt8} (short : bytes.length + 1 ≤ data.length) :
    ((copyInto data 0 bytes).set bytes.length 0).take (bytes.length + 1) = bytes ++ [0] := by
  have ended : copyInto data 0 (bytes ++ [0]) = (copyInto data 0 bytes).set bytes.length 0 := by
    rw [copyInto_append, Nat.zero_add]
    rfl
  have length : (bytes ++ [0]).length = bytes.length + 1 := List.length_append
  rw [← ended, ← length]
  exact take_copyInto (length.trans_le short)

theorem base64Decoded_sz (filled : 0 < x.sz) :
    x.base64Decoded.sz = (Bytes.mnbase64DecodeUrlStdInplace x.data (x.sz - 1)).2.1 + 1 := by
  rw [MnBytes.base64Decoded, dif_pos filled]

theorem base64Decoded_data (filled : 0 < x.sz) :
    x.base64Decoded.data = (Bytes.mnbase64DecodeUrlStdInplace x.data (x.sz - 1)).2.2.set
      (Bytes.mnbase64DecodeUrlStdInplace x.data (x.sz - 1)).2.1 0 := by
  rw [MnBytes.base64Decoded, dif_pos filled]

/-- What `bytes_base64_decode_url` leaves of a string that has been encoded. -/
theorem base64Decoded_content (content : x.content = encodeAll src ++ [0]) :
    (Bytes.mnbase64DecodeUrlStdInplace x.data (x.sz - 1)).1 = 0 ∧ x.base64Decoded.sz = src.length + 1 ∧
      x.base64Decoded.content = octets ((sextets src).map fun v => codesUrlStd (alphabetUrlStd v)) ++ [0] := by
  have size := size_of_ends content
  have filled : 0 < x.sz := size ▸ Nat.succ_pos _
  have length := encodeAll_length src
  have fits := x.fits
  have reads : Reads shared x.data 0 (encodeAll src) := by
    intro k low
    have front : x.data.take x.sz = encodeAll src ++ [0] := content
    have inside : k < x.sz := by omega
    rw [Nat.zero_mul, Nat.zero_add, shared, List.getD_eq_getElem?_getD, ← List.getElem?_take_of_lt inside, front,
      List.getElem?_append_left low, List.getD_eq_getElem?_getD]
  have chars : decodeChars codesUrlStd (encodeAll src) =
      (0, octets ((sextets src).map fun v => codesUrlStd (alphabetUrlStd v))) := by
    rw [encodeAll_eq, encodeChars_eq alphabet_urlStd]
    exact decodeChars_spelled alphabet_urlStd codesUrlStd (filled_sextets src).shape
  have same : (octets ((sextets src).map fun v => codesUrlStd (alphabetUrlStd v))).length = src.length := by
    rw [length_octets_map, octets_sextets]
  have inner : x.sz - 1 = (encodeAll src).length := by omega
  have decoded : Bytes.mnbase64DecodeUrlStdInplace x.data (x.sz - 1) = _ :=
    (decodeUrlStdInplace_eq _ _).trans (inner ▸ decodeBody_eq steady_shared codesUrlStd reads (by omega) (by omega))
  rw [chars] at decoded
  dsimp only at decoded
  rw [MnBytes.content, base64Decoded_sz filled, base64Decoded_data filled, decoded]
  exact ⟨rfl, congrArg (· + 1) same, take_ended (by omega)⟩

/-- The string is encoded, and what has been made of it is decoded again. -/
def UrlStrRestored (system : Allocator MnBytes) (s : BytesStore) (p : Ptr) (x : MnBytes) : Prop :=
  ∃ a encoded decoded y, bytesBase64EncodeUrlStr system p s = .ok (some a, encoded) ∧
    bytesBase64DecodeUrl (some a) encoded = .ok (0, decoded) ∧ decoded.heap.lookup a = some y ∧
      y.sz = x.sz ∧ y.content = x.content

theorem base64EncodeUrlStr_eq (system : Allocator MnBytes) (loaded : load p s = .ok (x, s)) (filled : x.sz ≠ 0)
    {n : Nat} (size : (x.sz - 1 + if (x.sz - 1) % 3 ≠ 0 then 3 - (x.sz - 1) % 3 else 0) * 4 / 3 = n) :
    bytesBase64EncodeUrlStr system p s =
      (match Bytes.mnbase64EncodeUrlStd (x.content.take (x.sz - 1)) n with
      | none => do
          let res ← bytesNew system (n + 1)
          bytesDecref res
          return none
      | some out => create system (n + 1) (n + 1) le_rfl (out ++ [0])) s := by
  subst size
  apply (bind_ok loaded _).trans
  exact congrFun (if_neg filled) s

/-- A string with its bytes and the NUL behind them. -/
theorem base64EncodeUrlStr_ends (system : Allocator MnBytes) (loaded : load p s = .ok (x, s))
    (ends : x.content = src ++ [0]) :
    bytesBase64EncodeUrlStr system p s =
      (match Bytes.mnbase64EncodeUrlStd src ((src.length + 2) / 3 * 4) with
      | none => do
          let res ← bytesNew system ((src.length + 2) / 3 * 4 + 1)
          bytesDecref res
          return none
      | some out =>
          create system ((src.length + 2) / 3 * 4 + 1) ((src.length + 2) / 3 * 4 + 1) le_rfl (out ++ [0])) s := by
  have size := size_of_ends ends
  have front : x.content.take (x.sz - 1) = src := by
    rw [ends, size, Nat.add_sub_cancel, List.take_left]
  rw [base64EncodeUrlStr_eq system loaded (by omega) (reckoned (x.sz - 1)), front, size, Nat.add_sub_cancel]

theorem base64EncodeUrlStr_ok (system : Allocator MnBytes) (loaded : load p s = .ok (x, s))
    (ends : x.content = src ++ [0]) (rest : src.length % 3 ≠ 0) :
    ∃ a encoded y, bytesBase64EncodeUrlStr system p s = .ok (some a, encoded) ∧ encoded.heap.lookup a = some y ∧
      y.content = encodeAll src ++ [0] := by
  have out : Bytes.mnbase64EncodeUrlStd src ((src.length + 2) / 3 * 4) = some (encodeAll src) := by
    rw [Bytes.mnbase64EncodeUrlStd, if_neg (by omega)]
  have length : (encodeAll src ++ [0]).length = (src.length + 2) / 3 * 4 + 1 := by
    rw [List.length_append, encodeAll_length, List.length_singleton]
  rw [base64EncodeUrlStr_ends system loaded ends, out, ← length]
  rcases create_ok system le_rfl (encodeAll src ++ [0]) s with ⟨a, encoded, created, cell⟩
  exact ⟨a, encoded, _, created, cell, madeOf_content le_rfl rfl _⟩

/-- Bytes that fill their groups are refused. -/
theorem base64EncodeUrlStr_refused (loaded : load p s = .ok (x, s)) (ends : x.content = src ++ [0])
    (thirds : src.length % 3 = 0) {res : Ptr} (ran : bytesBase64EncodeUrlStr system p s = .ok (res, next)) :
    res = none := by
  rw [base64EncodeUrlStr_ends system loaded ends, (encode_refuses_iff src).mpr thirds] at ran
  rcases of_run_bind ran with ⟨made, middle, -, ran⟩
  rcases of_run_bind ran with ⟨⟨⟩, last, -, ran⟩
  cases ran
  rfl

theorem base64DecodeUrl_ok (cell : s.heap.lookup a = some x) (content : x.content = encodeAll src ++ [0]) :
    ∃ decoded y, bytesBase64DecodeUrl (some a) s = .ok (0, decoded) ∧ decoded.heap.lookup a = some y ∧
      y.sz = src.length + 1 ∧
      y.content = octets ((sextets src).map fun v => codesUrlStd (alphabetUrlStd v)) ++ [0] := by
  rcases base64Decoded_content content with ⟨code, size, bytes⟩
  have filled : x.sz ≠ 0 := by
    rw [size_of_ends content]
    exact Nat.succ_ne_zero _
  have ran := bytesBase64DecodeUrl_ok cell
  rw [if_neg filled, code] at ran
  exact ⟨_, _, ran, Finmap.lookup_insert _, size, bytes⟩

theorem urlStr_restored_iff (system : Allocator MnBytes) (loaded : load p s = .ok (x, s))
    (ends : x.content = src ++ [0]) :
    UrlStrRestored system s p x ↔ src.length % 3 ≠ 0 ∧ 62 ∉ sextets src := by
  have size := size_of_ends ends
  constructor
  · rintro ⟨a, encoded, decoded, y, ran, read, cell, _, content⟩
    have rest : src.length % 3 ≠ 0 := fun thirds => nomatch base64EncodeUrlStr_refused loaded ends thirds ran
    rcases base64EncodeUrlStr_ok system loaded ends rest with ⟨a', encoded', made, ran', there, chars⟩
    cases ran.symm.trans ran'
    rcases base64DecodeUrl_ok there chars with ⟨decoded', y', read', cell', _, content'⟩
    cases read.symm.trans read'
    cases cell.symm.trans cell'
    rw [content', ends] at content
    exact ⟨rest, (urlStd_groups src).mp (List.append_cancel_right content)⟩
  · rintro ⟨rest, without⟩
    rcases base64EncodeUrlStr_ok system loaded ends rest with ⟨a, encoded, made, ran, there, chars⟩
    rcases base64DecodeUrl_ok there chars with ⟨decoded, y, read, cell, sizes, content⟩
    rw [(urlStd_groups src).mpr without] at content
    exact ⟨a, encoded, decoded, y, ran, read, cell, sizes.trans size.symm, content.trans ends.symm⟩

theorem urlStr_restored_iff_one :
    load (some 1) (holding ⟨1, 2, 0, [5, 0], le_rfl⟩) =
        .ok (⟨1, 2, 0, [5, 0], le_rfl⟩, holding ⟨1, 2, 0, [5, 0], le_rfl⟩) ∧
      (UrlStrRestored (Allocator.bump ⟨0, 0, 0, [], le_rfl⟩) (holding ⟨1, 2, 0, [5, 0], le_rfl⟩) (some 1)
          ⟨1, 2, 0, [5, 0], le_rfl⟩ ↔
        [(5 : UInt8)].length % 3 ≠ 0 ∧ 62 ∉ sextets [5]) :=
  ⟨rfl, urlStr_restored_iff _ rfl rfl⟩

/-- "abc" is not encoded. -/
theorem urlStr_abc_refused :
    ¬ UrlStrRestored (Allocator.bump ⟨0, 0, 0, [], le_rfl⟩) (holding ⟨1, 4, 0, [97, 98, 99, 0], le_rfl⟩) (some 1)
      ⟨1, 4, 0, [97, 98, 99, 0], le_rfl⟩ := by
  rintro ⟨a, encoded, _, _, ran, _⟩
  have loaded : load (some 1) (holding ⟨1, 4, 0, [97, 98, 99, 0], le_rfl⟩) = .ok (_, _) := rfl
  have ends : (⟨1, 4, 0, [97, 98, 99, 0], le_rfl⟩ : MnBytes).content = [97, 98, 99] ++ [0] := rfl
  exact nomatch base64EncodeUrlStr_refused loaded ends rfl ran

end MnCommon.ByteStrings
