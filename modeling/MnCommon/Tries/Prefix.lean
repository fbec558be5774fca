import Mathlib.Algebra.Order.Ring.Nat
import Mathlib.Data.Nat.Log

/-! Prefixes of binary numbers. A prefix fixes the leading digits of a number
and leaves the lowest ones free; it is the address of a node in a binary trie. -/

namespace MnCommon.Tries

structure Prefix where
  bits : Nat
  free : Nat
  deriving DecidableEq, Repr

namespace Prefix

def Covers (p : Prefix) (key : Nat) : Prop := key / 2 ^ p.free = p.bits

instance (p : Prefix) (key : Nat) : Decidable (p.Covers key) :=
  inferInstanceAs (Decidable (key / 2 ^ p.free = p.bits))

/-- The prefix of a key with the lowest `free` digits cut off. -/
def cut (key free : Nat) : Prefix := ⟨key / 2 ^ free, free⟩

def parent (p : Prefix) : Prefix := ⟨p.bits / 2, p.free + 1⟩

def child (p : Prefix) (side : Bool) : Prefix := ⟨2 * p.bits + side.toNat, p.free - 1⟩

/-- The last digit that is fixed: on which side of its parent a prefix lies. -/
def side (p : Prefix) : Bool := p.bits % 2 == 1

theorem cut_covers (key free : Nat) : (cut key free).Covers key := rfl

theorem Covers.eq_cut {p : Prefix} {key : Nat} (covers : p.Covers key) : p = cut key p.free := by
  rw [cut, covers]

@[simp] theorem cut_zero (key : Nat) : cut key 0 = ⟨key, 0⟩ := by simp [cut]

theorem covers_zero {p : Prefix} (bottom : p.free = 0) (key : Nat) : p.Covers key ↔ p.bits = key := by
  rw [Covers, bottom, pow_zero, Nat.div_one, eq_comm]

theorem parent_cut (key free : Nat) : (cut key free).parent = cut key (free + 1) := by
  rw [parent, cut, cut, Nat.div_div_eq_div_mul, pow_succ]

theorem Covers.parent {p : Prefix} {key : Nat} (covers : p.Covers key) : p.parent.Covers key := by
  rw [covers.eq_cut, parent_cut]
  exact cut_covers key (p.free + 1)

theorem toNat_side (p : Prefix) : p.side.toNat = p.bits % 2 := by
  rw [side]
  rcases Nat.mod_two_eq_zero_or_one p.bits with even | odd
  · rw [even]; rfl
  · rw [odd]; rfl

@[simp] theorem child_parent (p : Prefix) : p.parent.child p.side = p := by
  rw [parent, child, toNat_side]
  congr 1
  exact Nat.div_add_mod p.bits 2

@[simp] theorem parent_child {p : Prefix} (deep : 0 < p.free) (b : Bool) : (p.child b).parent = p := by
  rw [parent, child]
  congr 1
  · cases b <;> simp only [Bool.toNat_false, Bool.toNat_true] <;> omega
  · exact Nat.sub_add_cancel deep

@[simp] theorem side_child (p : Prefix) (b : Bool) : (p.child b).side = b := by
  cases b <;> simp [side, child]

@[simp] theorem free_child (p : Prefix) (b : Bool) : (p.child b).free = p.free - 1 := rfl

@[simp] theorem free_parent (p : Prefix) : p.parent.free = p.free + 1 := rfl

theorem bits_child_ne_zero {p : Prefix} (nonzero : p.bits ≠ 0) (b : Bool) : (p.child b).bits ≠ 0 := by
  simp only [child]
  omega

theorem bits_child_ne_one {p : Prefix} (nonzero : p.bits ≠ 0) (b : Bool) : (p.child b).bits ≠ 1 := by
  simp only [child]
  omega

theorem child_injective {p : Prefix} {b c : Bool} (same : p.child b = p.child c) : b = c := by
  rw [← side_child p b, same, side_child]

theorem child_ne (p : Prefix) (b : Bool) : p.child (!b) ≠ p.child b := by
  intro same
  have := child_injective same
  cases b <;> cases this

theorem eq_child_iff {p : Prefix} (deep : 0 < p.free) (b : Bool) (q : Prefix) :
    p.child b = q ↔ q.parent = p ∧ q.side = b := by
  constructor
  · rintro rfl
    exact ⟨parent_child deep b, side_child p b⟩
  · rintro ⟨rfl, rfl⟩
    exact child_parent q

/-- One more digit of the key. -/
theorem cut_child (key free : Nat) (b : Bool) :
    (cut key (free + 1)).child b = cut key free ↔ (cut key free).side = b := by
  rw [eq_child_iff (Nat.succ_pos free), parent_cut]
  exact ⟨fun both => both.2, fun same => ⟨rfl, same⟩⟩

theorem covers_child_iff {p : Prefix} (deep : 0 < p.free) (key : Nat) (b : Bool) :
    (p.child b).Covers key ↔ p.Covers key ∧ (cut key (p.free - 1)).side = b := by
  have level : p.free - 1 + 1 = p.free := Nat.sub_add_cancel deep
  constructor
  · intro covers
    have shape := covers.eq_cut
    rw [free_child] at shape
    refine ⟨?_, shape ▸ side_child p b⟩
    have above := covers.parent
    rwa [parent_child deep] at above
  · rintro ⟨covers, rfl⟩
    have shape := covers.eq_cut
    rw [← level] at shape
    have down := (cut_child key (p.free - 1) _).mpr rfl
    rw [← shape] at down
    rw [down]
    exact cut_covers key _

theorem exists_child {p : Prefix} (deep : 0 < p.free) {key : Nat} (covers : p.Covers key) :
    ∃ b, (p.child b).Covers key :=
  ⟨_, (covers_child_iff deep key _).mpr ⟨covers, rfl⟩⟩

theorem Covers.of_child {p : Prefix} (deep : 0 < p.free) {key : Nat} {b : Bool}
    (covers : (p.child b).Covers key) : p.Covers key :=
  ((covers_child_iff deep key b).mp covers).1

/-- The length of a key: all its digits below the most significant one are free. -/
theorem covers_one_iff (key free : Nat) : (⟨1, free⟩ : Prefix).Covers key ↔ key ≠ 0 ∧ key.log2 = free := by
  change key / 2 ^ free = 1 ↔ _
  constructor
  · intro same
    have nonzero : key ≠ 0 := by
      rintro rfl
      rw [Nat.zero_div] at same
      cases same
    refine ⟨nonzero, (Nat.log2_eq_iff nonzero).mpr ?_⟩
    have lower := Nat.div_mul_le_self key (2 ^ free)
    have upper := Nat.lt_div_mul_add (a := key) (Nat.two_pow_pos free)
    rw [same] at lower upper
    rw [pow_succ]
    omega
  · rintro ⟨nonzero, rfl⟩
    have bounds := (Nat.log2_eq_iff nonzero).mp rfl
    rw [pow_succ] at bounds
    exact Nat.div_eq_of_lt_le (by omega) (by omega)

theorem cut_log2 {key : Nat} (nonzero : key ≠ 0) : cut key key.log2 = ⟨1, key.log2⟩ :=
  (((covers_one_iff key _).mpr ⟨nonzero, rfl⟩).eq_cut).symm

theorem bits_cut_ne_zero {key free : Nat} (nonzero : key ≠ 0) (short : free ≤ key.log2) :
    (cut key free).bits ≠ 0 := by
  have lower := Nat.log2_self_le nonzero
  have small := Nat.pow_le_pow_right (Nat.two_pos) short
  exact (Nat.div_pos (small.trans lower) (Nat.two_pow_pos free)).ne'

theorem free_le_log2 {p : Prefix} {key : Nat} (nonzero : p.bits ≠ 0) (covers : p.Covers key) :
    p.free ≤ key.log2 := by
  have positive : key / 2 ^ p.free ≠ 0 := fun zero => nonzero (covers.symm.trans zero)
  have large : 2 ^ p.free ≤ key := by
    by_contra small
    exact positive (Nat.div_eq_of_lt (Nat.lt_of_not_le small))
  have key_ne : key ≠ 0 := fun zero => positive (by rw [zero, Nat.zero_div])
  exact (Nat.le_log2 key_ne).mpr large

theorem iterate_parent (p : Prefix) (n : Nat) : parent^[n] p = ⟨p.bits / 2 ^ n, p.free + n⟩ := by
  induction n with
  | zero => simp
  | succ n ih =>
      rw [Function.iterate_succ_apply', ih, parent, pow_succ, Nat.div_div_eq_div_mul, Nat.add_assoc]

/-- `p` is `x` or one of the prefixes of `x`. -/
def Below (x p : Prefix) : Prop := x.free ≤ p.free ∧ parent^[p.free - x.free] x = p

theorem Below.refl (p : Prefix) : Below p p := ⟨le_rfl, by rw [Nat.sub_self]; rfl⟩

theorem Below.of_parent {x p : Prefix} (below : Below x.parent p) : Below x p := by
  rcases below with ⟨level, same⟩
  rw [free_parent] at level same
  refine ⟨by omega, ?_⟩
  have steps : p.free - x.free = (p.free - (x.free + 1)) + 1 := by omega
  rw [steps, Function.iterate_succ_apply, same]

theorem Below.parent {x p : Prefix} (below : Below x p) (apart : x ≠ p) : Below x.parent p := by
  rcases below with ⟨level, same⟩
  have strict : x.free ≠ p.free := by
    intro equal
    rw [equal, Nat.sub_self] at same
    exact apart same
  have steps : p.free - x.free = (p.free - (x.free + 1)) + 1 := by omega
  rw [steps, Function.iterate_succ_apply] at same
  exact ⟨by rw [free_parent]; omega, same⟩

/-- What lies properly below a prefix lies below one of its children. -/
theorem Below.child {x p : Prefix} (below : Below x p) (strict : x.free < p.free) :
    ∃ b, Below x (p.child b) := by
  rcases below with ⟨-, same⟩
  have steps : p.free - x.free = (p.free - 1 - x.free) + 1 := by omega
  rw [steps, Function.iterate_succ_apply'] at same
  refine ⟨side (Prefix.parent^[p.free - 1 - x.free] x), ?_, ?_⟩
  · rw [free_child]
    omega
  · rw [free_child]
    calc _ = (Prefix.parent^[p.free - 1 - x.free] x).parent.child _ := (child_parent _).symm
      _ = _ := by rw [same]

theorem Below.covers {x p : Prefix} {key : Nat} (below : Below x p) (covers : x.Covers key) :
    p.Covers key := by
  rcases below with ⟨-, same⟩
  rw [← same]
  generalize p.free - x.free = n
  induction n with
  | zero => exact covers
  | succ n ih =>
      rw [Function.iterate_succ_apply']
      exact ih.parent

theorem Below.eq_of_free_le {x p : Prefix} (below : Below x p) (level : p.free ≤ x.free) : x = p := by
  have same := below.2
  rwa [Nat.sub_eq_zero_of_le level] at same

theorem Below.trans {x y z : Prefix} (first : Below x y) (second : Below y z) : Below x z := by
  rcases first with ⟨low, near⟩
  rcases second with ⟨high, far⟩
  refine ⟨low.trans high, ?_⟩
  have steps : z.free - x.free = (z.free - y.free) + (y.free - x.free) := by omega
  rw [steps, Function.iterate_add_apply, near, far]

/-- The prefix of the digits of `x` above the position `level`. -/
theorem below_level (x : Prefix) {level : Nat} (above : x.free ≤ level) :
    Below x ⟨x.bits / 2 ^ (level - x.free), level⟩ := by
  refine ⟨above, ?_⟩
  rw [iterate_parent]
  congr 1
  exact Nat.add_sub_cancel' above

/-- `x` and a key agree down to the digit below `level`, where they part. -/
theorem below_other_child {x : Prefix} {key level : Nat} (above : x.free < level)
    (agree : key / 2 ^ level = x.bits / 2 ^ (level - x.free))
    (part : key / 2 ^ (level - 1) ≠ x.bits / 2 ^ (level - 1 - x.free)) :
    Below x ((cut key level).child (!(cut key (level - 1)).side)) := by
  have last : level - 1 + 1 = level := Nat.sub_add_cancel (Nat.zero_lt_of_lt above)
  have reach := below_level x (Nat.le_sub_one_of_lt above)
  generalize bottom : (⟨x.bits / 2 ^ (level - 1 - x.free), level - 1⟩ : Prefix) = y at reach
  have climb : y.parent = cut key level := by
    rw [← bottom, parent, cut, agree, last]
    congr 1
    rw [Nat.div_div_eq_div_mul, ← pow_succ]
    congr 2
    omega
  have other : y.side = !(cut key (level - 1)).side := by
    apply Bool.eq_not_of_ne
    intro same
    have whole := (cut_child key (level - 1) y.side).mpr same.symm
    rw [last, ← climb, child_parent] at whole
    apply part
    have bits := congrArg bits whole
    rw [← bottom] at bits
    exact bits.symm
  rwa [← climb, ← other, child_parent]

theorem below_of_covers {x : Prefix} {key : Nat} (covers : x.Covers key) : Below ⟨key, 0⟩ x := by
  refine ⟨Nat.zero_le _, ?_⟩
  rw [iterate_parent, covers.eq_cut]
  simp [cut]

/-- Nothing with digits lies above a root. -/
theorem Below.bits_eq_one {x p : Prefix} (below : Below p x) (top : p.bits = 1) (nonzero : x.bits ≠ 0) :
    x.bits = 1 := by
  have same := below.2
  rw [iterate_parent, top] at same
  have bits := congrArg bits same
  have small := Nat.div_le_self 1 (2 ^ (x.free - p.free))
  simp only at bits
  omega

theorem Below.eq_root {p : Prefix} {i : Nat} (below : Below p ⟨1, i⟩) (top : p.bits = 1) : p = ⟨1, i⟩ := by
  apply below.eq_of_free_le
  by_contra apart
  have same := congrArg bits below.2
  rw [iterate_parent, top] at same
  have small : 1 < 2 ^ (i - p.free) := Nat.one_lt_two_pow (Nat.sub_ne_zero_of_lt (Nat.lt_of_not_le apart))
  rw [Nat.div_eq_of_lt small] at same
  cases same

theorem below_root {x : Prefix} (nonzero : x.bits ≠ 0) : Below x ⟨1, x.bits.log2 + x.free⟩ := by
  refine ⟨Nat.le_add_left _ _, ?_⟩
  have top : x.bits / 2 ^ x.bits.log2 = 1 := (covers_one_iff _ _).mpr ⟨nonzero, rfl⟩
  rw [iterate_parent, Nat.add_sub_cancel, top, Nat.add_comm]

end Prefix

/-- `Nearer side x y`: going from low to high (`side` true) or from high to low,
`x` comes before `y`. -/
def Nearer (side : Bool) (x y : Nat) : Prop := if side then x < y else y < x

namespace Nearer

variable {side : Bool} {x y z : Nat}

theorem trans (first : Nearer side x y) (second : Nearer side y z) : Nearer side x z := by
  cases side <;> simp only [Nearer, Bool.false_eq_true, if_true, if_false] at * <;> omega

theorem irrefl (side : Bool) (x : Nat) : ¬ Nearer side x x := by
  cases side <;> simp [Nearer]

theorem total (side : Bool) (x y : Nat) : Nearer side x y ∨ x = y ∨ Nearer side y x := by
  cases side <;> simp only [Nearer, Bool.false_eq_true, if_true, if_false] <;> omega

/-- Prefixes of one length lie in the order of the numbers below them. -/
theorem of_div (scale : Nat) (apart : Nearer side (x / scale) (y / scale)) : Nearer side x y := by
  cases side <;> simp only [Nearer, Bool.false_eq_true, if_true, if_false] at *
  · exact Nat.lt_of_div_lt_div apart
  · exact Nat.lt_of_div_lt_div apart

/-- What lies beyond a child on the far side lies beyond its parent. -/
theorem child_far (side : Bool) (q y : Nat) :
    Nearer side (2 * q + side.toNat) y ↔ Nearer side q (y / 2) := by
  cases side <;> simp only [Nearer, Bool.false_eq_true, if_true, if_false, Bool.toNat_false,
    Bool.toNat_true] <;> omega

/-- What lies beyond a child on the near side lies below its sibling or beyond
its parent. -/
theorem child_near (side : Bool) (q y : Nat) :
    Nearer side (2 * q + (!side).toNat) y ↔ y = 2 * q + side.toNat ∨ Nearer side q (y / 2) := by
  cases side <;> simp only [Nearer, Bool.false_eq_true, if_true, if_false, Bool.toNat_false,
    Bool.toNat_true, Bool.not_false, Bool.not_true] <;> omega

end Nearer

namespace Prefix

variable {side : Bool} {p : Prefix} {x y : Nat}

/-- `y` comes after all numbers below `p`. -/
def Past (side : Bool) (p : Prefix) (y : Nat) : Prop := Nearer side p.bits (y / 2 ^ p.free)

/-- `y` lies below the far child of `p` or comes after all numbers below `p`. -/
def Beyond (side : Bool) (p : Prefix) (y : Nat) : Prop := (p.child side).Covers y ∨ Past side p y

theorem Past.nearer (past : Past side p y) (covers : p.Covers x) : Nearer side x y := by
  apply Nearer.of_div (2 ^ p.free)
  rw [covers]
  exact past

theorem bits_split (p : Prefix) : p.bits = 2 * p.parent.bits + p.side.toNat := by
  rw [toNat_side]
  exact (Nat.div_add_mod p.bits 2).symm

theorem div_parent (p : Prefix) (y : Nat) : y / 2 ^ p.free / 2 = y / 2 ^ p.parent.free := by
  rw [Nat.div_div_eq_div_mul, free_parent, pow_succ]

theorem past_far (same : p.side = side) : Past side p y ↔ Past side p.parent y := by
  rw [Past, bits_split, same, Nearer.child_far, div_parent]
  rfl

theorem past_near (other : p.side ≠ side) : Past side p y ↔ Beyond side p.parent y := by
  have opposite : p.side = !side := Bool.eq_not_of_ne other
  rw [Past, bits_split, opposite, Nearer.child_near, div_parent]
  rfl

theorem not_past_root {i : Nat} (covers : (⟨1, i⟩ : Prefix).Covers y) : ¬ Past side ⟨1, i⟩ y := by
  rw [Past, covers]
  exact Nearer.irrefl side 1

theorem past_cut {key : Nat} (free : Nat) (outside : ¬ (cut key free).Covers y) :
    Past side (cut key free) y ↔ y = key ∨ Nearer side key y := by
  constructor
  · intro past
    exact .inr (past.nearer (cut_covers key free))
  · rintro (rfl | after)
    · exact absurd (cut_covers _ free) outside
    · rcases Nearer.total side (key / 2 ^ free) (y / 2 ^ free) with past | same | before
      · exact past
      · exact absurd same.symm outside
      · exact absurd (after.trans (Nearer.of_div _ before)) (Nearer.irrefl side key)

theorem child_apart (side : Bool) (p : Prefix) (near : (p.child (!side)).Covers x)
    (far : (p.child side).Covers y) : Nearer side x y := by
  apply Nearer.of_div (2 ^ (p.free - 1))
  have first : x / 2 ^ (p.free - 1) = 2 * p.bits + (!side).toNat := near
  have second : y / 2 ^ (p.free - 1) = 2 * p.bits + side.toNat := far
  rw [first, second]
  exact (Nearer.child_near side p.bits _).mpr (.inl rfl)

/-- Shorter keys are smaller. -/
theorem root_apart {i j : Nat} (apart : Nearer side i j) (first : (⟨1, i⟩ : Prefix).Covers x)
    (second : (⟨1, j⟩ : Prefix).Covers y) : Nearer side x y := by
  obtain ⟨nonzero, rfl⟩ := (covers_one_iff x i).mp first
  obtain ⟨positive, rfl⟩ := (covers_one_iff y j).mp second
  have lower : ∀ a b : Nat, b ≠ 0 → a.log2 < b.log2 → a < b := by
    intro a b some less
    calc a < 2 ^ (a.log2 + 1) := Nat.lt_log2_self
      _ ≤ 2 ^ b.log2 := Nat.pow_le_pow_right Nat.two_pos less
      _ ≤ b := Nat.log2_self_le some
  cases side <;> simp only [Nearer, Bool.false_eq_true, if_true, if_false] at *
  · exact lower _ _ nonzero apart
  · exact lower _ _ positive apart

end Prefix

/-- A key of a set that no other one comes before, or nothing when there is none. -/
inductive Nearest (side : Bool) (live : Nat → Prop) : Option Nat → Prop where
  | absent (empty : ∀ key, ¬ live key) : Nearest side live none
  | present {key : Nat} (member : live key) (first : ∀ other, live other → other = key ∨ Nearer side key other) :
      Nearest side live (some key)

namespace Nearest

variable {side : Bool} {live near far : Nat → Prop} {found other : Option Nat}

theorem congr (same : ∀ key, near key ↔ far key) (nearest : Nearest side near found) :
    Nearest side far found := by
  cases nearest with
  | absent empty => exact .absent fun key member => empty key ((same key).mpr member)
  | present member first =>
      exact .present ((same _).mp member) fun other inside => first other ((same other).mpr inside)

/-- The search goes through two sets one after the other. -/
theorem orElse (apart : ∀ x y, near x → far y → Nearer side x y) (first : Nearest side near found)
    (second : found = none → Nearest side far other) :
    Nearest side (fun key => near key ∨ far key) (found.or other) := by
  cases first with
  | absent empty =>
      rw [Option.none_or]
      refine (second rfl).congr fun key => ?_
      exact ⟨Or.inr, fun member => member.resolve_left (empty key)⟩
  | present member least =>
      rw [Option.some_or]
      refine .present (.inl member) fun other inside => ?_
      rcases inside with inside | inside
      · exact least other inside
      · exact .inr (apart _ other member inside)

theorem single {key : Nat} (member : live key) (only : ∀ other, live other → other = key) :
    Nearest side live (some key) :=
  .present member fun other inside => .inl (only other inside)

end Nearest

end MnCommon.Tries
