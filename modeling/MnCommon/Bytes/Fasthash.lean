import Mathlib.Data.Nat.Digits.Lemmas

/-! The hash function of `fasthash.c`. -/

namespace MnCommon.Bytes

/-- Up to eight bytes as a `uint64_t`, which lies in memory with its low byte first. -/
def wordOf (bytes : List UInt8) : UInt64 := UInt64.ofNat (Nat.ofDigits 256 (bytes.map UInt8.toNat))

/-- `DJB2XOR`. -/
def djb2xor (n c : UInt64) : UInt64 := ((n <<< 5) + n) ^^^ c

/-- The words of the loop, of which there are `count`. -/
def hashWords (s : List UInt8) : Nat → UInt64 → UInt64
  | 0, n => n
  | count + 1, n => hashWords (s.drop 8) count (djb2xor n (wordOf (s.take 8)))

def fasthash (n : UInt64) (s : List UInt8) : UInt64 :=
  let sz1 := s.length - s.length % 8
  let hashed := hashWords s (sz1 / 8) (n ^^^ UInt64.ofNat s.length)
  -- the last bytes are taken from the end on
  if s.length % 8 = 0 then hashed else djb2xor hashed (wordOf (s.drop sz1).reverse)

/-- The eight bytes of a word. -/
def bytesOf (u : UInt64) : List UInt8 :=
  (List.range 8).map fun k => UInt8.ofNat (u.toNat / 256 ^ k % 256)

theorem length_bytesOf (u : UInt64) : (bytesOf u).length = 8 := by
  rw [bytesOf, List.length_map, List.length_range]

theorem ofDigits_range (b u n : Nat) :
    Nat.ofDigits b ((List.range n).map fun k => u / b ^ k % b) = u % b ^ n := by
  induction n with
  | zero => rw [List.range_zero, List.map_nil, Nat.ofDigits_nil, Nat.pow_zero, Nat.mod_one]
  | succ n ih =>
      rw [List.range_succ, List.map_append, Nat.ofDigits_append, ih, List.length_map, List.length_range,
        List.map_singleton, Nat.ofDigits_singleton, Nat.mod_pow_succ]

theorem wordOf_bytesOf (u : UInt64) : wordOf (bytesOf u) = u := by
  have digits : (bytesOf u).map UInt8.toNat = (List.range 8).map fun k => u.toNat / 256 ^ k % 256 := by
    rw [bytesOf, List.map_map]
    apply List.map_congr_left
    intro k _
    change (UInt8.ofNat (u.toNat / 256 ^ k % 256)).toNat = _
    rw [UInt8.toNat_ofNat', Nat.mod_mod]
  have small : u.toNat < 256 ^ 8 := u.toNat_lt
  rw [wordOf, digits, ofDigits_range, Nat.mod_eq_of_lt small, UInt64.ofNat_toNat]

/-- The hash of eight bytes. -/
theorem fasthash_word (n u : UInt64) : fasthash n (bytesOf u) = ((n ^^^ 8) <<< 5 + (n ^^^ 8)) ^^^ u := by
  have whole : (bytesOf u).take 8 = bytesOf u := List.take_of_length_le (length_bytesOf u).le
  rw [fasthash, length_bytesOf]
  simp only [Nat.mod_self, Nat.sub_zero, if_pos, Nat.div_self (by decide : 0 < 8), hashWords, whole, wordOf_bytesOf,
    djb2xor]
  rfl

/-- Every value is the hash of some eight bytes. -/
theorem fasthash_surjective (n h : UInt64) : ∃ key, fasthash n key = h := by
  refine ⟨bytesOf (((n ^^^ 8) <<< 5 + (n ^^^ 8)) ^^^ h), ?_⟩
  rw [fasthash_word, ← UInt64.xor_assoc, UInt64.xor_self, UInt64.zero_xor]

end MnCommon.Bytes
