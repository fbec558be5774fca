import Mathlib.Algebra.Ring.Int.Defs
import Mathlib.Data.List.Rotate
import MnCommon.Arrays.GetSafe
import MnCommon.Ring.Model

/-! The cursor of a ring under any steps, and what is seen from it in both directions. -/

namespace MnCommon.Ring

open Arrays
open Memory (execute execute_step of_map_ok)

/-- A ring of `n` elements with its cursor at one of them. -/
structure Rounds (n : Nat) (ring : Mnring) : Prop where
  elnum : ring.a.elnum = n
  inside : ring.cursor.toNat < n

/-- The pointers to the elements. -/
def elements (ring : Mnring) : List Nat :=
  (List.range ring.a.elnum).map fun i => ring.a.elsz * i % 2 ^ 64

/-- The addition to the cursor does not exceed the type of the cursor. -/
def Unwrapped (ring : Mnring) (incr : Int32) : Prop :=
  ∃ i, around incr.toInt (elnum ring) = .ok i ∧ 0 ≤ i ∧ (ring.cursor.toNat : Int) + i < 2 ^ 32

/-- The index behind `v` and the one in front of it. -/
def following (n v : Nat) : Nat := if v + 1 = n then 0 else v + 1

def preceding (n v : Nat) : Nat := if v = 0 then n - 1 else v - 1

theorem toInt_toInt32 {it : UInt32} (small : it.toNat < 2 ^ 31) : it.toInt32.toInt = it.toNat := by
  have same : it.toInt32 = Int32.ofNat it.toNat := by rw [← UInt32.toInt32_ofNat', UInt32.ofNat_toNat]
  rw [same, Int32.toInt_ofNat_of_lt small]

theorem ofInt_toNat {x : Int} (low : 0 ≤ x) (high : x < 2 ^ 32) : ((UInt32.ofInt x).toNat : Int) = x := by
  change (((x % 2 ^ 32).toNat % 2 ^ 32 : Nat) : Int) = x
  rw [Int.emod_eq_of_lt low high]
  omega

theorem toNat_ofNat {i : Nat} (small : i < 2 ^ 32) : (UInt32.ofNat i).toNat = i := by
  rw [UInt32.toNat_ofNat', Nat.mod_eq_of_lt small]

theorem ofInt_natCast {i : Nat} (small : i < 2 ^ 32) : UInt32.ofInt i = UInt32.ofNat i := by
  apply UInt32.toNat_inj.mp
  have value := @ofInt_toNat i (by omega) (by omega)
  rw [toNat_ofNat small]
  omega

theorem tmod_emod (x mod : Int) : x.tmod mod % mod = x % mod := by
  rw [Int.tmod_def, Int.sub_mul_emod_self_left]

theorem bmod_small {n : Nat} (bound : n ≤ 2 ^ 30) : (n : Int).bmod (2 ^ 32) = n := by
  apply Int.bmod_eq_of_le
  · omega
  · omega

/-- The remainder of C, moved up by `mod` and taken once more, is the one that is not negative. -/
theorem around_eq (x : Int) {mod : Int} (positive : 0 < mod) (bound : mod ≤ 2 ^ 30) :
    around x mod = .ok (x % mod) := by
  have above : -mod < x.tmod mod := by
    have opposite := Int.tmod_lt_of_pos (-x) positive
    rw [Int.neg_tmod] at opposite
    omega
  have below : x.tmod mod < mod := Int.tmod_lt_of_pos x positive
  have fits : -2 ^ 31 ≤ x.tmod mod + mod ∧ x.tmod mod + mod < 2 ^ 31 := by omega
  have value : (x.tmod mod + mod).tmod mod = x % mod := by
    rw [Int.tmod_eq_emod_of_nonneg (by omega), Int.add_emod_right, tmod_emod]
  have nonzero : ¬ mod = 0 := positive.ne'
  have divisor : ∀ y, ¬ (y = (-2 ^ 31 : Int) ∧ mod = -1) := by omega
  simp only [around, remainder, signed, if_neg nonzero, if_neg (divisor _), bind, Except.bind, if_pos fits, value]

section

variable {n : Nat} {ring : Mnring} (bound : n ≤ 2 ^ 30)

include bound

theorem elnum_eq (rounds : Rounds n ring) : elnum ring = n := by
  unfold elnum
  rw [rounds.elnum]
  exact bmod_small bound

theorem stepped_next (rounds : Rounds n ring) {v : Nat} (inside : v < n) :
    stepped ring (UInt32.ofNat v) 1 = .ok (following n v) := by
  have value : ((UInt32.ofNat v).toNat) = v := toNat_ofNat (by omega)
  have moved : signed ((UInt32.ofNat v).toInt32.toInt + 1) = .ok ((v : Int) + 1) := by
    rw [toInt_toInt32 (by omega), value, signed, if_pos (by omega)]
  rw [stepped, moved, elnum_eq bound rounds]
  simp only [bind, Except.bind]
  rw [around_eq _ (by omega) (by omega), following]
  congr 1
  split
  · next last =>
      rw [← last]
      exact Int.emod_self
  · exact Int.emod_eq_of_lt (by omega) (by omega)

theorem stepped_prev (rounds : Rounds n ring) {v : Nat} (inside : v < n) :
    stepped ring (UInt32.ofNat v) (-1) = .ok (preceding n v) := by
  have value : ((UInt32.ofNat v).toNat) = v := toNat_ofNat (by omega)
  have moved : signed ((UInt32.ofNat v).toInt32.toInt + -1) = .ok ((v : Int) - 1) := by
    rw [toInt_toInt32 (by omega), value, signed, if_pos (by omega)]
    rfl
  rw [stepped, moved, elnum_eq bound rounds]
  simp only [bind, Except.bind]
  rw [around_eq _ (by omega) (by omega), preceding]
  congr 1
  split
  · next first =>
      subst first
      rw [← Int.add_emod_right, Int.emod_eq_of_lt (by omega) (by omega)]
      omega
  · rw [Int.emod_eq_of_lt (by omega) (by omega)]
    omega

/-- The cursor after one step, whichever it is. -/
theorem mnringAdvance_spec (rounds : Rounds n ring) (incr : Int32) :
    Unwrapped ring incr ∧ ∃ p next, mnringAdvance incr ring = .ok (p, next) ∧ Rounds n next ∧ next.a = ring.a ∧
      (next.cursor.toNat : Int) = ((ring.cursor.toNat : Int) + incr.toInt) % n := by
  have inside := rounds.inside
  have positive : (0 : Int) < n := by omega
  have low : 0 ≤ incr.toInt % n := Int.emod_nonneg _ positive.ne'
  have high : incr.toInt % n < n := Int.emod_lt_of_pos _ positive
  have reduced : around incr.toInt (elnum ring) = .ok (incr.toInt % n) := by
    rw [elnum_eq bound rounds, around_eq _ positive (by omega)]
  have value := ofInt_toNat low (by omega)
  have mod : (UInt32.ofInt (n : Int)).toNat = n := by
    have same := @ofInt_toNat n (by omega) (by omega)
    omega
  have sum : (ring.cursor + UInt32.ofInt (incr.toInt % n)).toNat =
      ring.cursor.toNat + (UInt32.ofInt (incr.toInt % n)).toNat := by
    rw [UInt32.toNat_add, Nat.mod_eq_of_lt]
    omega
  let cursor := (ring.cursor + UInt32.ofInt (incr.toInt % n)) % UInt32.ofInt (n : Int)
  have after : cursor.toNat = (ring.cursor.toNat + (UInt32.ofInt (incr.toInt % n)).toNat) % n := by
    rw [UInt32.toNat_mod, sum, mod]
  refine ⟨⟨_, reduced, low, by omega⟩, arrayGetIter ring.a cursor, { ring with cursor := cursor }, ?_, ?_, rfl, ?_⟩
  · rw [mnringAdvance, reduced, elnum_eq bound rounds]
    rfl
  · refine ⟨rounds.elnum, ?_⟩
    rw [after]
    exact Nat.mod_lt _ (by omega)
  · rw [after, Int.natCast_emod, Int.natCast_add, value, Int.add_emod_emod]

/-- The cursor after any steps. -/
theorem execute_advance (rounds : Rounds n ring) (steps : List Int32) :
    ∃ ps next, execute mnringAdvance steps ring = .ok (ps, next) ∧ Rounds n next ∧ next.a = ring.a ∧
      (next.cursor.toNat : Int) = ((ring.cursor.toNat : Int) + (steps.map Int32.toInt).sum) % n := by
  induction steps generalizing ring with
  | nil =>
      refine ⟨[], ring, rfl, rounds, rfl, ?_⟩
      have inside := rounds.inside
      rw [List.map_nil, List.sum_nil, Int.add_zero, Int.emod_eq_of_lt] <;> omega
  | cons incr steps ih =>
      rcases mnringAdvance_spec bound rounds incr with ⟨-, p, second, ran, rounds', same, cursor⟩
      rcases ih rounds' with ⟨ps, next, rest, rounds'', same', cursor'⟩
      refine ⟨p :: ps, next, execute_step ran rest, rounds'', same'.trans same, ?_⟩
      rw [cursor', cursor, Int.emod_add_emod, List.map_cons, List.sum_cons, Int.add_assoc]

end

/-- A loop whose iterator goes through some places, each with an element. -/
theorem walk_places {next : UInt32 → Except Fault (Option Nat × UInt32)} (p value : Nat → Nat) {last : Nat}
    (moves : ∀ k < last,
      next (UInt32.ofNat (value k)) = .ok (some (p (value (k + 1))), UInt32.ofNat (value (k + 1))))
    (ends : next (UInt32.ofNat (value last)) = .ok (none, UInt32.ofNat (value last)))
    (left k fuel : Nat) (here : k + left = last) (enough : left + 1 < fuel) :
    walk next fuel (some (p (value k)), UInt32.ofNat (value k)) =
      .ok (((List.range' k (left + 1)).map value).map p) := by
  induction left generalizing k fuel with
  | zero =>
      obtain ⟨fuel, rfl⟩ : ∃ less, fuel = less + 2 := ⟨fuel - 2, by omega⟩
      obtain rfl : k = last := here
      rw [walk, ends]
      rfl
  | succ left ih =>
      obtain ⟨fuel, rfl⟩ : ∃ less, fuel = less + 1 := ⟨fuel - 1, by omega⟩
      rw [walk, moves k (by omega)]
      simp only [bind, Except.bind]
      rw [ih (k + 1) fuel (by omega) (by omega)]
      rfl

/-- The places from the cursor on, in cyclic order. -/
def place (n c k : Nat) : Nat := (c + k) % n

theorem place_cases {n c k : Nat} (inside : c < n) (less : k < n) :
    c + k < n ∧ place n c k = c + k ∨ n ≤ c + k ∧ place n c k = c + k - n := by
  rw [place]
  by_cases before : c + k < n
  · exact .inl ⟨before, Nat.mod_eq_of_lt before⟩
  · refine .inr ⟨by omega, ?_⟩
    rw [Nat.mod_eq_sub_mod (by omega), Nat.mod_eq_of_lt (by omega)]

section

variable {n c k : Nat} (inside : c < n)

include inside

theorem place_lt : place n c k < n := Nat.mod_lt _ (by omega)

theorem place_zero : place n c 0 = c := Nat.mod_eq_of_lt inside

theorem following_place (less : k + 1 < n) : following n (place n c k) = place n c (k + 1) := by
  have here := place_cases inside (Nat.lt_of_succ_lt less)
  have there := place_cases inside less
  rw [following]
  split <;> omega

theorem preceding_place (less : k + 1 < n) : preceding n (place n c (k + 1)) = place n c k := by
  have here := place_cases inside (Nat.lt_of_succ_lt less)
  have there := place_cases inside less
  rw [preceding]
  split <;> omega

/-- The last place is in front of the cursor. -/
theorem preceding_cursor : preceding n c = place n c (n - 1) := by
  have here := place_cases inside (show n - 1 < n by omega)
  rw [preceding]
  split <;> omega

theorem following_last : following n (place n c (n - 1)) = c := by
  have here := place_cases inside (show n - 1 < n by omega)
  rw [following]
  split <;> omega

theorem place_ne (positive : 0 < k) (less : k < n) : place n c k ≠ c := by
  have here := place_cases inside less
  omega

end

theorem rotate_range (n c : Nat) : (List.range n).rotate c = (List.range n).map (place n c) := by
  apply List.ext_getElem
  · rw [List.length_rotate, List.length_map]
  · intro k _ _
    rw [List.getElem_rotate, List.getElem_map, List.getElem_range, List.getElem_range, List.length_range, place,
      Nat.add_comm]

theorem reversed_places (n c : Nat) :
    (List.range' 0 n).map (fun k => place n c (n - 1 - k)) = ((List.range n).rotate c).reverse := by
  rw [rotate_range, ← List.map_reverse, List.range_eq_range', List.reverse_range', List.map_map,
    List.range_eq_range', Nat.zero_add]
  rfl

section

variable {n : Nat} {ring : Mnring} (bound : n ≤ 2 ^ 30) (rounds : Rounds n ring)

include bound rounds

/-- The pointer to the element at a place. -/
def pointer (ring : Mnring) (v : Nat) : Nat := ring.a.elsz * v % 2 ^ 64

theorem arrayGetIter_place {v : Nat} (inside : v < n) :
    arrayGetIter ring.a (UInt32.ofNat v) = some (pointer ring v) := by
  rw [arrayGetIter, toNat_ofNat (by omega), rounds.elnum, if_pos inside, pointer]

theorem stepped_cursor : stepped ring ring.cursor (-1) = .ok (preceding n ring.cursor.toNat) := by
  have same := stepped_prev bound rounds rounds.inside
  rwa [UInt32.ofNat_toNat] at same

theorem mnringNextStop_moves {v : Nat} (inside : v < n) (there : following n v < n)
    (other : following n v ≠ ring.cursor.toNat) :
    mnringNextStop ring (UInt32.ofNat v) =
      .ok (some (pointer ring (following n v)), UInt32.ofNat (following n v)) := by
  have cursor := rounds.inside
  have stays : ¬ (following n v : Int) = ring.cursor.toInt32.toInt := by
    rw [toInt_toInt32 (by omega)]
    exact fun same => other (Int.ofNat.inj same)
  rw [mnringNextStop, stepped_next bound rounds inside]
  simp only [bind, Except.bind, if_neg stays]
  rw [ofInt_natCast (by omega), arrayGetIter_place bound rounds there]
  rfl

theorem mnringNextStop_ends {v : Nat} (inside : v < n) (same : following n v = ring.cursor.toNat) :
    mnringNextStop ring (UInt32.ofNat v) = .ok (none, UInt32.ofNat v) := by
  have cursor := rounds.inside
  have stops : (following n v : Int) = ring.cursor.toInt32.toInt := by rw [toInt_toInt32 (by omega), same]
  rw [mnringNextStop, stepped_next bound rounds inside]
  simp only [bind, Except.bind, if_pos stops]
  rfl

theorem mnringPrevStop_moves {v : Nat} (inside : v < n) (there : preceding n v < n)
    (other : preceding n v ≠ preceding n ring.cursor.toNat) :
    mnringPrevStop ring (UInt32.ofNat v) =
      .ok (some (pointer ring (preceding n v)), UInt32.ofNat (preceding n v)) := by
  have stays : ¬ (preceding n v : Int) = preceding n ring.cursor.toNat := fun same => other (Int.ofNat.inj same)
  rw [mnringPrevStop, stepped_prev bound rounds inside, stepped_cursor bound rounds]
  simp only [bind, Except.bind, if_neg stays]
  rw [ofInt_natCast (by omega), arrayGetIter_place bound rounds there]
  rfl

theorem mnringPrevStop_ends :
    mnringPrevStop ring ring.cursor = .ok (none, ring.cursor) := by
  rw [mnringPrevStop, stepped_cursor bound rounds]
  simp only [bind, Except.bind, if_pos]
  rfl

/-- From the cursor forwards: every element once, and then NULL. -/
theorem forward_eq {fuel : Nat} (enough : n < fuel) :
    forward fuel ring = .ok ((elements ring).rotate ring.cursor.toNat) := by
  have inside := rounds.inside
  have moves : ∀ k < n - 1, mnringNextStop ring (UInt32.ofNat (place n ring.cursor.toNat k)) =
      .ok (some (pointer ring (place n ring.cursor.toNat (k + 1))),
        UInt32.ofNat (place n ring.cursor.toNat (k + 1))) := by
    intro k less
    have next := following_place inside (show k + 1 < n by omega)
    rw [← next]
    apply mnringNextStop_moves bound rounds (place_lt inside)
    · rw [next]
      exact place_lt inside
    · rw [next]
      exact place_ne inside (Nat.succ_pos k) (by omega)
  have ends := mnringNextStop_ends bound rounds (place_lt inside) (following_last inside)
  have first : mnringFirst ring =
      (some (pointer ring (place n ring.cursor.toNat 0)), UInt32.ofNat (place n ring.cursor.toNat 0)) := by
    rw [mnringFirst, place_zero inside, ← arrayGetIter_place bound rounds inside, UInt32.ofNat_toNat]
  have all : n - 1 + 1 = n := by omega
  rw [forward, first,
    walk_places (pointer ring) (place n ring.cursor.toNat) moves ends (n - 1) 0 fuel (Nat.zero_add _) (by omega),
    all, ← List.range_eq_range', ← rotate_range, List.map_rotate, elements, rounds.elnum]
  rfl

/-- From the last one backwards: the same elements the other way. -/
theorem backward_eq {fuel : Nat} (enough : n < fuel) :
    backward fuel ring = .ok ((elements ring).rotate ring.cursor.toNat).reverse := by
  have inside := rounds.inside
  have moves : ∀ k < n - 1, mnringPrevStop ring (UInt32.ofNat (place n ring.cursor.toNat (n - 1 - k))) =
      .ok (some (pointer ring (place n ring.cursor.toNat (n - 1 - (k + 1)))),
        UInt32.ofNat (place n ring.cursor.toNat (n - 1 - (k + 1)))) := by
    intro k less
    obtain ⟨i, here⟩ : ∃ i, n - 1 - k = i + 1 := ⟨n - 2 - k, by omega⟩
    have there : n - 1 - (k + 1) = i := by omega
    have next := preceding_place inside (show i + 1 < n by omega)
    rw [here, there, ← next]
    apply mnringPrevStop_moves bound rounds (place_lt inside)
    · rw [next]
      exact place_lt inside
    · rw [next, preceding_cursor inside]
      have one := place_cases inside (show i < n by omega)
      have other := place_cases inside (show n - 1 < n by omega)
      omega
  have ends : mnringPrevStop ring (UInt32.ofNat (place n ring.cursor.toNat (n - 1 - (n - 1)))) =
      .ok (none, UInt32.ofNat (place n ring.cursor.toNat (n - 1 - (n - 1)))) := by
    rw [Nat.sub_self, place_zero inside, UInt32.ofNat_toNat]
    exact mnringPrevStop_ends bound rounds
  have last : mnringLast ring = .ok (some (pointer ring (place n ring.cursor.toNat (n - 1 - 0))),
      UInt32.ofNat (place n ring.cursor.toNat (n - 1 - 0))) := by
    have there : place n ring.cursor.toNat (n - 1) < n := place_lt inside
    rw [mnringLast, stepped_cursor bound rounds, preceding_cursor inside]
    simp only [bind, Except.bind]
    rw [ofInt_natCast (by omega), arrayGetIter_place bound rounds there]
    rfl
  have all : n - 1 + 1 = n := by omega
  rw [backward, last]
  simp only [bind, Except.bind]
  rw [walk_places (pointer ring) (fun k => place n ring.cursor.toNat (n - 1 - k)) moves ends (n - 1) 0 fuel
    (Nat.zero_add _) (by omega), all, reversed_places, List.map_reverse, List.map_rotate, elements, rounds.elnum]
  rfl

end

theorem mnringInit_rounds {junk : Nat → UInt8} {elsz n : Nat} {init fini : Option Callback} {events : List Event}
    {ring : Mnring} (some : 1 ≤ n) (made : mnringInit junk elsz n init fini = .ok (events, ring)) :
    Rounds n ring ∧ ring.cursor = 0 := by
  rw [mnringInit] at made
  cases ran : arrayInit junk elsz n init fini with
  | error fault =>
      rw [ran] at made
      cases made
  | ok result =>
      rcases result with ⟨res, calls, a⟩
      rw [ran] at made
      dsimp only at made
      split at made
      · cases made
        have count : a.elnum = n := by
          rw [arrayInit] at ran
          split at ran
          · cases ran
          · rw [if_pos (show 0 < n from some)] at ran
            rcases of_map_ok ran with ⟨⟨code, log, after⟩, visited, same⟩
            rcases visit_data visited with ⟨data, rfl⟩
            cases same
            rfl
        exact ⟨⟨count, some⟩, rfl⟩
      · cases made

/-- A ring is at the sum of the steps modulo its length, and from there all of its elements are
seen once in either direction. -/
theorem ring_turns {junk : Nat → UInt8} {elsz n : Nat} {init fini : Option Callback} {events : List Event}
    {start : Mnring} (some : 1 ≤ n) (bound : n ≤ 2 ^ 30)
    (made : mnringInit junk elsz n init fini = .ok (events, start)) (steps : List Int32) :
    ∃ ps ring, execute mnringAdvance steps start = .ok (ps, ring) ∧
      (ring.cursor.toNat : Int) = (steps.map Int32.toInt).sum % n ∧ (∀ incr, Unwrapped ring incr) ∧
      ring.a = start.a ∧ start.a.elnum = n ∧
      ∀ fuel > n, forward fuel ring = .ok ((elements ring).rotate ring.cursor.toNat) ∧
        backward fuel ring = .ok ((elements ring).rotate ring.cursor.toNat).reverse := by
  rcases mnringInit_rounds some made with ⟨first, zero⟩
  rcases execute_advance bound first steps with ⟨ps, ring, ran, rounds, same, cursor⟩
  refine ⟨ps, ring, ran, ?_, ?_, same, first.elnum, ?_⟩
  · rw [cursor, zero]
    exact congrArg (· % (n : Int)) (Int.zero_add _)
  · intro incr
    exact (mnringAdvance_spec bound rounds incr).1
  · intro fuel enough
    exact ⟨forward_eq bound rounds enough, backward_eq bound rounds enough⟩

theorem ring_turns_seven : ∃ start ps ring, mnringInit (fun _ => 0) 4 7 none none = .ok ([], start) ∧
    execute mnringAdvance [1, 10, -24] start = .ok (ps, ring) ∧ ring.cursor.toNat = 1 ∧
    forward 8 ring = .ok [4, 8, 12, 16, 20, 24, 0] ∧ backward 8 ring = .ok [0, 24, 20, 16, 12, 8, 4] := by
  rcases ring_turns (by decide) (by decide) (rfl : mnringInit (fun _ => 0) 4 7 none none = .ok ([], _)) [1, 10, -24]
    with ⟨ps, ring, ran, cursor, -, same, -, both⟩
  have one : ring.cursor.toNat = 1 := Int.ofNat.inj cursor
  have all : elements ring = [0, 4, 8, 12, 16, 20, 24] := by
    rw [elements, same]
    rfl
  have seen := both 8 (by decide)
  rw [one, all] at seen
  exact ⟨_, ps, ring, rfl, ran, one, seen⟩

end MnCommon.Ring
