import Mathlib.Data.List.GetD
import MnCommon.ByteStrings.Cache
import MnCommon.Radix.Sextets

/-! What `bytes_urlencode2` and `bytes_str_urlencode2` write, and what `bytes_urldecode` makes
of it. -/

namespace MnCommon.ByteStrings

open Memory
open Radix (shift_lt)

/-- The flags of the 256 bytes, of which `RFC3986_UNRESERVED` is 4. -/
def charflags : List UInt8 := [
  2,2,2,2,2,2,2,2,2,2,2,2,2,2,2,2,2,2,2,2,2,2,2,2,2,2,2,2,2,2,2,2,
  2,1,2,1,1,2,1,1,1,1,1,1,1,4,4,1,4,4,4,4,4,4,4,4,4,4,1,1,2,1,2,1,
  1,4,4,4,4,4,4,4,4,4,4,4,4,4,4,4,4,4,4,4,4,4,4,4,4,4,4,1,2,1,2,4,
  2,4,4,4,4,4,4,4,4,4,4,4,4,4,4,4,4,4,4,4,4,4,4,4,4,4,4,2,2,2,4,2,
  2,2,2,2,2,2,2,2,2,2,2,2,2,2,2,2,2,2,2,2,2,2,2,2,2,2,2,2,2,2,2,2,
  2,2,2,2,2,2,2,2,2,2,2,2,2,2,2,2,2,2,2,2,2,2,2,2,2,2,2,2,2,2,2,2,
  2,2,2,2,2,2,2,2,2,2,2,2,2,2,2,2,2,2,2,2,2,2,2,2,2,2,2,2,2,2,2,2,
  2,2,2,2,2,2,2,2,2,2,2,2,2,2,2,2,2,2,2,2,2,2,2,2,2,2,2,2,2,2,2,2]

/-- The flags of all bytes in turn. -/
theorem charflags_unreserved :
    charflags.map (fun flags => decide (flags &&& 4 ≠ 0)) =
      (List.range 256).map fun k => unreserved (UInt8.ofNat k) := by
  decide +kernel

/-- The table has the characters that RFC 3986 does not reserve. -/
theorem unreserved_iff (c : UInt8) : unreserved c = true ↔ charflags.getD c.toNat 0 &&& 4 ≠ 0 := by
  have inside : c.toNat < ((List.range 256).map fun k => unreserved (UInt8.ofNat k)).length := by
    rw [List.length_map, List.length_range]
    exact c.toNat_lt
  have flag : decide (charflags.getD c.toNat 0 &&& 4 ≠ 0) = unreserved c := by
    calc
      decide (charflags.getD c.toNat 0 &&& 4 ≠ 0)
          = (charflags.map fun flags => decide (flags &&& 4 ≠ 0)).getD c.toNat false :=
            (List.getD_map charflags 0 fun flags => decide (flags &&& 4 ≠ 0)).symm
      _ = unreserved c := by
            rw [charflags_unreserved, List.getD_eq_getElem _ _ inside, List.getElem_map, List.getElem_range,
              UInt8.ofNat_toNat]
  rw [← flag, decide_eq_true_iff]
def IsHexDigit (c : UInt8) : Prop := 48 ≤ c ∧ c ≤ 57 ∨ 65 ≤ c ∧ c ≤ 70

instance (c : UInt8) : Decidable (IsHexDigit c) := inferInstanceAs (Decidable (_ ∨ _))

/-- Unreserved characters and triples of a percent sign and two hexadecimal digits. -/
inductive UrlText : List UInt8 → Prop
  | nil : UrlText []
  | plain {c : UInt8} {rest : List UInt8} (allowed : unreserved c = true) (later : UrlText rest) : UrlText (c :: rest)
  | triple {high low : UInt8} {rest : List UInt8} (first : IsHexDigit high) (second : IsHexDigit low)
      (later : UrlText rest) : UrlText (37 :: high :: low :: rest)

variable {s next : BytesStore} {d x : MnBytes} {a : Addr} {p : Ptr} {data bytes rest behind : List UInt8}
  {c : UInt8} {sz fuel src dst k : Nat}

theorem shift_lt_16 (v : UInt8) : v >>> 4 < 16 := shift_lt (by decide) v

theorem and_lt_16 (v : UInt8) : v &&& 15 < 16 := UInt8.and_lt_add_one (by decide)

theorem forall_nibble {P : UInt8 → Prop} (all : ∀ k : Fin 16, P (UInt8.ofNat k)) {v : UInt8} (low : v < 16) : P v := by
  have one := all ⟨v.toNat, UInt8.lt_iff_toNat_lt.mp low⟩
  rw [UInt8.ofNat_toNat] at one
  exact one

theorem isHexDigit_hexDigit {v : UInt8} (low : v < 16) : IsHexDigit (hexDigit v) :=
  forall_nibble (P := fun v => IsHexDigit (hexDigit v)) (by decide) low

theorem hexOf_hexDigit {v : UInt8} (low : v < 16) : hexOf (hexDigit v) = some v :=
  forall_nibble (P := fun v => hexOf (hexDigit v) = some v) (by decide) low

theorem nibbles (v : UInt8) : (v >>> 4) <<< 4 ||| v &&& 15 = v := by
  apply UInt8.eq_of_toBitVec_eq
  ext i low
  interval_cases i <;> simp

/-- The two digits of a byte, whatever has been there before. -/
theorem percent_digits (c old : UInt8) : percent (hexDigit (c >>> 4)) (hexDigit (c &&& 15)) old = c := by
  rw [percent, hexOf_hexDigit (shift_lt_16 c), hexOf_hexDigit (and_lt_16 c)]
  exact nibbles c

theorem unreserved_plain (c : UInt8) (allowed : unreserved c = true) : c ≠ 37 ∧ c ≠ 43 := by
  constructor
  · rintro rfl
    exact absurd allowed (by decide)
  · rintro rfl
    exact absurd allowed (by decide)

theorem urlText_flatMap (bytes : List UInt8) : UrlText (bytes.flatMap urlencoded) := by
  induction bytes with
  | nil => exact .nil
  | cons c rest ih =>
      rw [List.flatMap_cons, urlencoded]
      split
      next allowed => exact .plain allowed ih
      next =>
        exact .triple (isHexDigit_hexDigit (shift_lt_16 c)) (isHexDigit_hexDigit (and_lt_16 c)) ih

theorem length_le_urlencoded (bytes : List UInt8) : bytes.length ≤ (bytes.flatMap urlencoded).length := by
  induction bytes with
  | nil => exact Nat.le_refl 0
  | cons c rest ih =>
      have one : 1 ≤ (urlencoded c).length := by
        rw [urlencoded]
        split
        · exact Nat.le_refl 1
        · exact Nat.le_add_left 1 2
      rw [List.flatMap_cons, List.length_append, List.length_cons]
      omega

theorem unquotedPlus_plain (ahead : data.drop src = c :: rest) (percent : c ≠ 37) (plus : c ≠ 43) :
    unquotedPlus sz src dst data = (c, src + 1) := by
  have now := getD_of_drop ahead
  rw [unquotedPlus, now, if_neg plus, unquoted, now, if_neg fun both => percent both.1]

theorem unquotedPlus_triple (ahead : data.drop src = 37 :: hexDigit (c >>> 4) :: hexDigit (c &&& 15) :: rest)
    (inside : src + 2 < sz) : unquotedPlus sz src dst data = (c, src + 3) := by
  have now := getD_of_drop ahead
  have high := getD_of_drop (drop_succ ahead)
  have low := getD_of_drop (drop_succ (drop_succ ahead))
  rw [unquotedPlus, now, if_neg (by decide), unquoted, now, if_pos ⟨rfl, inside⟩, high, low, percent_digits]

/-- One character, which is read behind where it is written to. -/
theorem rewriteLoop_one {read : Nat → Nat → List UInt8 → UInt8 × Nat} (inside : src < sz)
    (one : read src dst data = (c, k)) :
    rewriteLoop read (fun _ => false) sz (fuel + 1) src dst data =
      rewriteLoop read (fun _ => false) sz fuel k (dst + 1) (data.set dst c) := by
  rw [rewriteLoop, if_pos inside, one]
  rfl

/-- The loop of `bytes_urldecode` on what has been encoded and a NUL. -/
theorem rewriteLoop_encoded (bytes : List UInt8) (ahead : data.drop src = bytes.flatMap urlencoded ++ 0 :: behind)
    (size : sz = src + (bytes.flatMap urlencoded).length + 1) (enough : bytes.length + 1 ≤ fuel) (order : dst ≤ src) :
    rewriteLoop (unquotedPlus sz) (fun _ => false) sz fuel src dst data =
      (dst + bytes.length + 1, copyInto data dst (bytes ++ [0])) := by
  induction bytes generalizing src dst data fuel with
  | nil =>
      cases fuel with
      | zero => exact absurd enough (Nat.not_succ_le_zero _)
      | succ fuel =>
          have one : unquotedPlus sz src dst data = (0, src + 1) := unquotedPlus_plain ahead (by decide) (by decide)
          have past : ¬ src + 1 < sz := by
            rw [size]
            exact Nat.lt_irrefl _
          rw [rewriteLoop_one (size ▸ Nat.lt_succ_self _) one]
          cases fuel with
          | zero => rfl
          | succ fuel =>
              rw [rewriteLoop, if_neg past]
              rfl
  | cons c bytes ih =>
      cases fuel with
      | zero => exact absurd enough (Nat.not_succ_le_zero _)
      | succ fuel =>
          rw [List.flatMap_cons, List.append_assoc] at ahead
          rw [List.flatMap_cons, List.length_append] at size
          rw [List.length_cons] at enough
          -- where the next character is, and that it is still there
          have further : ∀ k, unquotedPlus sz src dst data = (c, src + k) → (urlencoded c).length = k → 0 < k →
              data.drop (src + k) = bytes.flatMap urlencoded ++ 0 :: behind →
              rewriteLoop (unquotedPlus sz) (fun _ => false) sz (fuel + 1) src dst data =
                (dst + (c :: bytes).length + 1, copyInto data dst (c :: bytes ++ [0])) := by
            intro k one length positive next
            have before : dst < src + k := by omega
            have kept : (data.set dst c).drop (src + k) = _ := (List.drop_set_of_lt before).trans next
            have later : rewriteLoop (unquotedPlus sz) (fun _ => false) sz fuel (src + k) (dst + 1)
                (data.set dst c) = _ := ih kept (by omega) (by omega) before
            rw [rewriteLoop_one (by omega) one, later, List.length_cons, Nat.add_assoc dst 1, Nat.add_comm 1]
            rfl
          rw [urlencoded] at ahead further
          split at ahead
          next allowed =>
            rw [if_pos allowed] at further
            have plain := unreserved_plain c allowed
            exact further 1 (unquotedPlus_plain ahead plain.1 plain.2) rfl (by decide) (drop_succ ahead)
          next reserved =>
            rw [if_neg reserved] at further
            rw [urlencoded, if_neg reserved] at size
            have inside : src + 2 < sz := by
              simp only [List.length_cons] at size
              omega
            exact further 3 (unquotedPlus_triple ahead inside) rfl (by decide) (drop_succ (drop_succ (drop_succ ahead)))

theorem bytesUrldecode_encoded (content : d.content = bytes.flatMap urlencoded ++ [0]) :
    (bytesUrldecode d).sz = bytes.length + 1 ∧ (bytesUrldecode d).content = bytes ++ [0] := by
  have size : d.sz = 0 + (bytes.flatMap urlencoded).length + 1 := by
    rw [size_of_ends content, Nat.zero_add]
  have ahead : d.data.drop 0 = bytes.flatMap urlencoded ++ 0 :: d.data.drop d.sz := by
    have whole : d.content ++ d.data.drop d.sz = d.data := List.take_append_drop d.sz d.data
    rw [content, List.append_assoc] at whole
    exact whole.symm
  have long := length_le_urlencoded bytes
  have fits := d.fits
  have looped : rewriteLoop (unquotedPlus d.sz) (fun _ => false) d.sz d.sz 0 0 d.data = _ :=
    rewriteLoop_encoded bytes ahead size (by omega) (Nat.le_refl 0)
  rw [Nat.zero_add] at looped
  have sizes : (bytesUrldecode d).sz = bytes.length + 1 := congrArg Prod.fst looped
  refine ⟨sizes, ?_⟩
  have stored : (bytesUrldecode d).data = putNul (bytes.length + 1) (copyInto d.data 0 (bytes ++ [0])) := by
    change putNul (rewriteLoop _ _ _ _ _ _ _).1 (rewriteLoop _ _ _ _ _ _ _).2 = _
    rw [looped]
  rw [MnBytes.content, sizes, stored]
  exact take_putNul (by omega)

theorem putWrapped_eq (short : k + bytes.length ≤ 2 ^ 32) : putWrapped data k bytes = copyInto data k bytes := by
  induction bytes generalizing data k with
  | nil => rfl
  | cons c rest ih =>
      rw [List.length_cons] at short
      rw [putWrapped, copyInto, Nat.mod_eq_of_lt (by omega), ih (by omega)]

/-- The string at `a` has become an encoded one, from which `decoded` is read, and nothing behind it
or in other strings has changed. -/
def UrlEncoded (s next : BytesStore) (a : Addr) (d : MnBytes) (decoded : List UInt8) : Prop :=
  ∃ e text, next.heap.lookup a = some e ∧ (∀ b, b ≠ a → next.heap.lookup b = s.heap.lookup b) ∧
    e.data.length = d.data.length ∧ e.data.drop d.sz = d.data.drop d.sz ∧ e.content = text ++ [0] ∧ UrlText text ∧
      (bytesUrldecode e).sz = decoded.length ∧ (bytesUrldecode e).content = decoded

theorem urlencodeInto_ok (here : s.heap.lookup a = some d) (short : bytes.length < 2 ^ 30)
    (room : 3 * bytes.length + 1 ≤ d.sz) :
    ∃ next, urlencodeInto (some a) bytes s = .ok ((), next) ∧ UrlEncoded s next a d (bytes ++ [0]) := by
  have few : bytes.length < 2 ^ 32 := by omega
  have ran : urlencodeInto (some a) bytes s =
      .ok ((), { s with heap := s.heap.insert a (d.urlencodeReserved bytes room) }) := by
    rw [urlencodeInto, bind_ok (load_ok here), dif_pos room, if_pos few]
    exact update_ok _ here
  have fits := d.fits
  have long := length_urlencoded bytes
  have length : (bytes.flatMap urlencoded ++ [0]).length = (bytes.flatMap urlencoded).length + 1 := List.length_append
  have stored : (d.urlencodeReserved bytes room).data = copyInto d.data 0 (bytes.flatMap urlencoded ++ [0]) :=
    putWrapped_eq (by omega)
  have size : (d.urlencodeReserved bytes room).sz = (bytes.flatMap urlencoded).length + 1 := Nat.mod_eq_of_lt (by omega)
  have content : (d.urlencodeReserved bytes room).content = bytes.flatMap urlencoded ++ [0] := by
    rw [MnBytes.content, stored, size, ← length]
    exact take_copyInto (by omega)
  refine ⟨_, ran, _, _, Finmap.lookup_insert _, fun b other => Finmap.lookup_insert_of_ne _ other, ?_, ?_, content,
    urlText_flatMap bytes, ?_⟩
  · exact length_putWrapped _ _ _
  · rw [stored, drop_copyInto (by omega) fits]
  · rcases bytesUrldecode_encoded content with ⟨sizes, decoded⟩
    have count : (bytes ++ [(0 : UInt8)]).length = bytes.length + 1 := List.length_append
    exact ⟨sizes.trans count.symm, decoded⟩

/-- Both ways to encode a string into one that has the size that is asserted. -/
theorem urlencode_decodes (here : load (some a) s = .ok (d, s)) (there : load p s = .ok (x, s))
    (ends : x.content = bytes ++ [0]) (short : x.sz < 2 ^ 30) (room : x.sz * 3 + 1 ≤ d.sz) :
    (∃ next, bytesStrUrlencode2 (some a) p s = .ok ((), next) ∧ UrlEncoded s next a d x.content) ∧
      ∃ next, bytesUrlencode2 (some a) p s = .ok ((), next) ∧ UrlEncoded s next a d (x.content ++ [0]) := by
  rcases of_run_load here with ⟨-, c, same, cell⟩
  cases same
  have size := size_of_ends ends
  have length := length_content x
  have front : x.content.dropLast = bytes := by rw [ends, List.dropLast_concat]
  constructor
  · have large : (decide (x.sz * 3 + 1 ≤ d.sz)) = true := decide_eq_true room
    have fits : 3 * bytes.length + 1 ≤ d.sz := by omega
    rcases urlencodeInto_ok cell (by omega) fits with ⟨next, ran, encoded⟩
    rw [bytesStrUrlencode2, bind_ok here, bind_ok there, large, check_bind, if_neg (by omega), front, ends]
    exact ⟨next, ran, encoded⟩
  · rw [bytesUrlencode2, bind_ok there]
    exact urlencodeInto_ok cell (by omega) (by omega)

/-- A blank, and a string with room for it at two places. -/
def blank : MnBytes := ⟨1, 2, 0, [32, 0], le_rfl⟩

def roomy : MnBytes := ⟨1, 7, 0, List.replicate 8 9, by decide⟩

def twoStrings : BytesStore where
  heap := (Finmap.singleton 1 roomy).insert 2 blank
  vars := ()
  tick := 0

theorem urlencode_decodes_blank :
    blank.sz * 3 + 1 ≤ roomy.sz ∧
      (∃ next, bytesStrUrlencode2 (some 1) (some 2) twoStrings = .ok ((), next) ∧
        UrlEncoded twoStrings next 1 roomy blank.content) ∧
      ∃ next, bytesUrlencode2 (some 1) (some 2) twoStrings = .ok ((), next) ∧
        UrlEncoded twoStrings next 1 roomy (blank.content ++ [0]) := by
  have here : load (some 1) twoStrings = .ok (roomy, twoStrings) := rfl
  have there : load (some 2) twoStrings = .ok (blank, twoStrings) := rfl
  have ends : blank.content = [32] ++ [0] := rfl
  exact ⟨by decide, urlencode_decodes here there ends (by decide) (by decide)⟩

end MnCommon.ByteStrings
