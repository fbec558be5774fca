import MnCommon.ByteStrings.Model
import MnCommon.Radix.Words
import MnCommon.Radix.Sextets

/-! `bytes_tr` byte by byte, and `bytes_is_ascii`, which takes eight bytes at a time. -/

namespace MnCommon.ByteStrings

open Bytes (wordOf)
open Radix (and_128 and_digits)

variable {pairs front back : List (UInt8 × UInt8)} {c d e : UInt8} {s : MnBytes} {data bytes : List UInt8} {i k : Nat}

/-- The inner loop of `bytes_tr` over its two arrays. -/
def translated (pairs : List (UInt8 × UInt8)) (c : UInt8) : UInt8 :=
  pairs.foldl (fun c pair => if c = pair.1 then pair.2 else c) c

theorem translated_cons (pair : UInt8 × UInt8) (pairs : List (UInt8 × UInt8)) (c : UInt8) :
    translated (pair :: pairs) c = translated pairs (if c = pair.1 then pair.2 else c) := rfl

theorem translated_absent (absent : c ∉ pairs.map Prod.fst) : translated pairs c = c := by
  induction pairs with
  | nil => rfl
  | cons pair pairs ih =>
      rw [List.map_cons, List.mem_cons, not_or] at absent
      rw [translated_cons, if_neg absent.1]
      exact ih absent.2

theorem translated_entry (absent : c ∉ front.map Prod.fst) :
    translated (front ++ (c, d) :: back) c = translated back d := by
  have before : translated front c = c := translated_absent absent
  calc
    translated (front ++ (c, d) :: back) c = translated ((c, d) :: back) (translated front c) := List.foldl_append
    _ = translated back d := by rw [before, translated_cons, if_pos rfl]

/-- What a byte becomes by the first entry for it, what this becomes by a later entry, and so on. -/
inductive Leads : List (UInt8 × UInt8) → UInt8 → UInt8 → Prop
  | rest {pairs : List (UInt8 × UInt8)} {c : UInt8} (absent : c ∉ pairs.map Prod.fst) : Leads pairs c c
  | entry {front back : List (UInt8 × UInt8)} {c d e : UInt8} (absent : c ∉ front.map Prod.fst)
      (later : Leads back d e) : Leads (front ++ (c, d) :: back) c e

theorem Leads.translated (leads : Leads pairs c d) : translated pairs c = d := by
  induction leads with
  | rest absent => exact translated_absent absent
  | entry absent later ih => exact (translated_entry absent).trans ih

theorem Leads.skip {pair : UInt8 × UInt8} (other : c ≠ pair.1) (leads : Leads pairs c d) : Leads (pair :: pairs) c d := by
  cases leads with
  | rest absent =>
      apply Leads.rest
      rw [List.map_cons, List.mem_cons, not_or]
      exact ⟨other, absent⟩
  | @entry front back c m e absent later =>
      have absent' : c ∉ (pair :: front).map Prod.fst := by
        rw [List.map_cons, List.mem_cons, not_or]
        exact ⟨other, absent⟩
      exact Leads.entry absent' later

theorem leads_translated (pairs : List (UInt8 × UInt8)) (c : UInt8) : Leads pairs c (translated pairs c) := by
  induction pairs generalizing c with
  | nil => exact .rest List.not_mem_nil
  | cons pair pairs ih =>
      rw [translated_cons]
      by_cases here : c = pair.1
      · subst here
        rw [if_pos rfl]
        exact @Leads.entry [] pairs pair.1 pair.2 _ List.not_mem_nil (ih pair.2)
      · rw [if_neg here]
        exact (ih c).skip here

theorem leads_iff : Leads pairs c d ↔ translated pairs c = d := by
  constructor
  · exact Leads.translated
  · rintro rfl
    exact leads_translated pairs c

theorem bytesTr_content (pairs : List (UInt8 × UInt8)) (s : MnBytes) :
    (bytesTr pairs s).content = s.content.map (translated pairs) := replaced_content s _

/-- Every byte has become what the arrays have for it, and the others have stayed. -/
def Simultaneous (pairs : List (UInt8 × UInt8)) (s after : MnBytes) : Prop :=
  after.sz = s.sz ∧ ∀ (i : Nat) (c : UInt8), s.content[i]? = some c →
    (∀ d, (c, d) ∈ pairs → after.content[i]? = some d) ∧ (c ∉ pairs.map Prod.fst → after.content[i]? = some c)

/-- The first loop of `bytes_is_ascii` from the index `i` on, for so many words. -/
def asciiWords (data : List UInt8) : Nat → Nat → Bool
  | 0, _ => true
  | count + 1, i =>
      if wordOf ((data.drop i).take 8) &&& 0x8080808080808080 ≠ 0 then false else asciiWords data count (i + 8)

/-- The second loop, which goes backwards to the byte at `i`. -/
def asciiTail (data : List UInt8) (i : Nat) : Nat → Bool
  | 0 => true
  | mod + 1 => if data.getD (i + mod) 0 &&& 128 ≠ 0 then false else asciiTail data i mod

def bytesIsAscii (s : MnBytes) : Bool :=
  let mod := s.sz % 8
  let sz := s.sz - mod
  asciiWords s.data (sz / 8) 0 && asciiTail s.data sz mod

/-- Eight bytes at once. -/
theorem wordOf_mask (eight : bytes.length = 8) :
    wordOf bytes &&& 0x8080808080808080 = 0 ↔ ∀ c ∈ bytes, c < 128 := by
  have low : ∀ n ∈ bytes.map UInt8.toNat, n < 2 ^ 8 := by
    intro n inside
    rcases List.mem_map.mp inside with ⟨c, -, rfl⟩
    exact c.toNat_lt
  have small : Nat.ofDigits (2 ^ 8) (bytes.map UInt8.toNat) < 2 ^ 64 := by
    have bound := Nat.ofDigits_lt_base_pow_length (by decide) low
    rw [List.length_map, eight, ← Nat.pow_mul] at bound
    exact bound
  have value : (wordOf bytes).toNat = Nat.ofDigits (2 ^ 8) (bytes.map UInt8.toNat) := UInt64.toNat_ofNat_of_lt' small
  have lanes := and_digits (a := 128) (by decide) low
  rw [List.length_map, eight] at lanes
  have mask : Nat.ofDigits (2 ^ 8) (List.replicate 8 128) = 0x8080808080808080 := by decide
  rw [mask, List.forall_mem_map] at lanes
  calc
    wordOf bytes &&& 0x8080808080808080 = 0
        ↔ Nat.ofDigits (2 ^ 8) (bytes.map UInt8.toNat) &&& 0x8080808080808080 = 0 := by
          rw [← UInt64.toNat_inj, UInt64.toNat_and, value]
          rfl
    _ ↔ ∀ c ∈ bytes, c.toNat &&& 128 = 0 := lanes
    _ ↔ ∀ c ∈ bytes, c < 128 := by
          refine forall₂_congr fun c _ => ?_
          rw [← and_128, ← UInt8.toNat_inj, UInt8.toNat_and]
          rfl

theorem asciiWords_iff (data : List UInt8) (count i : Nat) (enough : i + 8 * count ≤ data.length) :
    asciiWords data count i = true ↔ ∀ c ∈ (data.drop i).take (8 * count), c < 128 := by
  induction count generalizing i with
  | zero => exact iff_of_true rfl (by simp)
  | succ count ih =>
      have eight : ((data.drop i).take 8).length = 8 := by
        rw [List.length_take, List.length_drop]
        omega
      have parts : (data.drop i).take (8 * (count + 1)) = (data.drop i).take 8 ++ (data.drop (i + 8)).take (8 * count) := by
        rw [Nat.mul_succ, Nat.add_comm (8 * count), List.take_add, List.drop_drop]
      rw [parts, List.forall_mem_append, ← ih (i + 8) (by omega), ← wordOf_mask eight, asciiWords]
      split
      next high => exact iff_of_false Bool.false_ne_true fun both => high both.1
      next low => exact (and_iff_right (not_not.mp low)).symm

theorem asciiTail_iff (data : List UInt8) (i mod : Nat) (enough : i + mod ≤ data.length) :
    asciiTail data i mod = true ↔ ∀ c ∈ (data.drop i).take mod, c < 128 := by
  induction mod with
  | zero => exact iff_of_true rfl (by simp)
  | succ mod ih =>
      have inside : mod < (data.drop i).length := by
        rw [List.length_drop]
        omega
      have last : (data.drop i)[mod] = data.getD (i + mod) 0 := by
        rw [List.getElem_drop, List.getD_eq_getElem?_getD, List.getElem?_eq_getElem (by omega), Option.getD_some]
      rw [List.take_succ_eq_append_getElem inside, List.forall_mem_append, ← ih (by omega), last, asciiTail]
      simp only [List.forall_mem_singleton, ← and_128]
      split
      next high => exact iff_of_false Bool.false_ne_true fun both => high both.2
      next low => exact (and_iff_left (not_not.mp low)).symm

theorem is_ascii_iff (s : MnBytes) : bytesIsAscii s = true ↔ ∀ c ∈ s.content, c < 0x80 := by
  have fits := s.fits
  have words : 8 * ((s.sz - s.sz % 8) / 8) = s.sz - s.sz % 8 := by omega
  have parts : s.content = s.data.take (s.sz - s.sz % 8) ++ (s.data.drop (s.sz - s.sz % 8)).take (s.sz % 8) := by
    rw [← List.take_add, Nat.sub_add_cancel (Nat.mod_le _ _)]
    rfl
  have first := asciiWords_iff s.data ((s.sz - s.sz % 8) / 8) 0 (by omega)
  have second := asciiTail_iff s.data (s.sz - s.sz % 8) (s.sz % 8) (by omega)
  rw [words, List.drop_zero] at first
  rw [bytesIsAscii, Bool.and_eq_true, first, second, parts, List.forall_mem_append]

end MnCommon.ByteStrings
