import MnCommon.Memory.Heap
import Mathlib.Algebra.BigOperators.Group.Finset.Basic

/-! Programs and all the records of the heap: a property of each, their number against one that the program keeps,
and sums over them. -/

namespace MnCommon.Memory

section Properties

variable {N R A B : Type}

def AllRecords (inv : N → Prop) (s : Store N R) : Prop := ∀ a n, s.heap.lookup a = some n → inv n

/-- Where the program returns all records still have the property, and what it returns
has the property `Q`. -/
def Keeps (inv : N → Prop) (Q : A → Prop) (x : Prog N R A) : Prop :=
  ∀ s, AllRecords inv s → ∀ a next, x s = .ok (a, next) → AllRecords inv next ∧ Q a

variable {inv : N → Prop} {Q : A → Prop} {P : B → Prop} {x : Prog N R A} {s next : Store N R}

theorem allRecords_insert (all : AllRecords inv s) (a : Addr) {n : N} (new : inv n) (tick : Nat) :
    AllRecords inv ⟨s.heap.insert a n, s.vars, tick⟩ := by
  intro b m cell
  by_cases here : b = a
  · rw [here, Finmap.lookup_insert] at cell
    cases cell
    exact new
  · rw [Finmap.lookup_insert_of_ne _ here] at cell
    exact all b m cell

/-- A part of a program that returns. -/
theorem of_run_bind {f : A → Prog N R B} {b : B} (ran : (x >>= f) s = .ok (b, next)) :
    ∃ a middle, x s = .ok (a, middle) ∧ f a middle = .ok (b, next) := by
  rw [run_bind] at ran
  cases first : x s with
  | error kind =>
      rw [first] at ran
      cases ran
  | ok result =>
      rw [first] at ran
      exact ⟨result.1, result.2, rfl, ran⟩

theorem of_run_load {p : Ptr} {n : N} (ran : load p s = .ok (n, next)) :
    next = s ∧ ∃ a, p = some a ∧ s.heap.lookup a = some n := by
  cases p with
  | none => cases ran
  | some a =>
      cases cell : s.heap.lookup a with
      | none =>
          simp only [load, cell] at ran
          cases ran
      | some m =>
          rw [load_ok cell] at ran
          cases ran
          exact ⟨rfl, a, rfl, cell⟩

theorem of_run_update {p : Ptr} {f : N → N} (ran : update p f s = .ok ((), next)) :
    ∃ a n, p = some a ∧ s.heap.lookup a = some n ∧ next = { s with heap := s.heap.insert a (f n) } := by
  cases p with
  | none => cases ran
  | some a =>
      cases cell : s.heap.lookup a with
      | none =>
          simp only [update, cell] at ran
          cases ran
      | some n =>
          rw [update_ok f cell] at ran
          cases ran
          exact ⟨a, n, rfl, cell, rfl⟩

theorem keeps_pure {a : A} (known : Q a) : Keeps inv Q (pure a : Prog N R A) := by
  intro s all b next ran
  cases ran
  exact ⟨all, known⟩

theorem keeps_fault (kind : Fault) : Keeps inv Q (fault kind : Prog N R A) := by
  intro s all b next ran
  cases ran

theorem Keeps.bind {f : A → Prog N R B} (keeps : Keeps inv Q x) (rest : ∀ a, Q a → Keeps inv P (f a)) :
    Keeps inv P (x >>= f) := by
  intro s all b final ran
  rcases of_run_bind ran with ⟨a, middle, first, later⟩
  rcases keeps s all a middle first with ⟨between, known⟩
  exact rest a known middle between b final later

theorem Keeps.map (keeps : Keeps inv Q x) (f : A → B) : Keeps inv (fun _ => True) (f <$> x) :=
  keeps.bind fun _ _ => keeps_pure trivial

theorem keeps_load (p : Ptr) : Keeps inv inv (load p : Prog N R N) := by
  intro s all n next ran
  rcases of_run_load ran with ⟨rfl, a, rfl, cell⟩
  exact ⟨all, all a n cell⟩

theorem keeps_update (p : Ptr) {f : N → N} (keeps : ∀ n, inv n → inv (f n)) :
    Keeps inv (fun _ => True) (update p f : Prog N R Unit) := by
  intro s all a next ran
  rcases of_run_update ran with ⟨b, n, rfl, cell, rfl⟩
  exact ⟨allRecords_insert all b (keeps n (all b n cell)) s.tick, trivial⟩

theorem keeps_free (p : Ptr) : Keeps inv (fun _ => True) (free p : Prog N R Unit) := by
  intro s all a next ran
  cases p with
  | none =>
      cases ran
      exact ⟨all, trivial⟩
  | some b =>
      cases cell : s.heap.lookup b with
      | none =>
          simp only [free, cell] at ran
          cases ran
      | some n =>
          rw [free_ok cell] at ran
          cases ran
          refine ⟨fun c m found => ?_, trivial⟩
          by_cases here : c = b
          · rw [here, Finmap.lookup_erase] at found
            cases found
          · rw [Finmap.lookup_erase_ne here] at found
            exact all c m found

theorem keeps_check (holds : Bool) : Keeps inv (fun _ => True) (check holds : Prog N R Unit) := by
  cases holds with
  | false => exact keeps_fault .assertion
  | true => exact keeps_pure trivial

theorem keeps_ite {c : Prop} [Decidable c] {y : Prog N R A} (yes : c → Keeps inv Q x) (no : ¬ c → Keeps inv Q y) :
    Keeps inv Q (if c then x else y) := by
  split
  next holds => exact yes holds
  next fails => exact no fails

/-- A record that is written right after its allocation. -/
theorem keeps_alloc (system : Allocator N) {f : N → N} (new : ∀ n, inv (f n)) {k : Ptr → Prog N R A}
    (rest : ∀ p, Keeps inv Q (k p)) :
    Keeps inv Q (alloc system >>= fun p => update p f >>= fun _ => k p) := by
  intro s all a next ran
  have cell := Finmap.lookup_insert (a := system.pick s.tick s.heap.keys) (b := system.junk s.tick) s.heap
  have written : (alloc system >>= fun p => update p f >>= fun _ => k p) s =
      k (some (system.pick s.tick s.heap.keys))
        ⟨s.heap.insert (system.pick s.tick s.heap.keys) (f (system.junk s.tick)), s.vars, s.tick + 1⟩ := by
    rw [bind_ok rfl, bind_ok (update_ok f cell), Finmap.insert_insert]
  rw [written] at ran
  exact rest _ _ (allRecords_insert all _ (new _) _) a next ran

end Properties

section Numbers

variable {N R A B : Type}

/-- By how many the records exceed the number that is kept. -/
def surplus (count : R → Nat) (s : Store N R) : Int := (s.heap.keys.card : Int) - count s.vars

/-- From a store with one surplus the program comes to one with another, wherever it returns. -/
def Balances (count : R → Nat) (before after : Int) (x : Prog N R A) : Prop :=
  ∀ s a next, surplus count s = before → x s = .ok (a, next) → surplus count next = after

/-- The surplus stays as it is. -/
def Neutral (count : R → Nat) (x : Prog N R A) : Prop := ∀ b, Balances count b b x

variable {count : R → Nat} {b c d : Int} {x y : Prog N R A} {f : A → Prog N R B} {p : Ptr} {s next : Store N R} {a : A}

theorem Neutral.surplus_eq (neutral : Neutral count x) (run : x s = .ok (a, next)) : surplus count next = surplus count s :=
  neutral _ s a next rfl run

theorem Balances.bind (first : Balances count b c x) (later : ∀ a, Balances count c d (f a)) :
    Balances count b d (x >>= f) := by
  intro s last next here run
  rcases of_run_bind run with ⟨a, middle, ran, rest⟩
  exact later a middle last next (first s a middle here ran) rest

theorem Neutral.bind (first : Neutral count x) (later : ∀ a, Neutral count (f a)) : Neutral count (x >>= f) := fun b =>
  (first b).bind fun a => later a b

theorem Neutral.then (first : Neutral count x) (later : ∀ a, Balances count b c (f a)) : Balances count b c (x >>= f) :=
  (first b).bind later

theorem Neutral.pure (a : A) : Neutral count (pure a : Prog N R A) := by
  intro b s _ next here run
  cases run
  exact here

theorem Balances.ite {q : Prop} [Decidable q] (yes : q → Balances count b c x) (no : ¬ q → Balances count b c y) :
    Balances count b c (if q then x else y) := by
  split
  · exact yes ‹q›
  · exact no ‹¬ q›

theorem Neutral.ite {q : Prop} [Decidable q] (yes : q → Neutral count x) (no : ¬ q → Neutral count y) :
    Neutral count (if q then x else y) := fun b => Balances.ite (fun h => yes h b) fun h => no h b

theorem Balances.fault (kind : Fault) : Balances count b c (fault kind : Prog N R A) := by
  intro s a next _ run
  cases run

theorem Neutral.fault (kind : Fault) : Neutral count (fault kind : Prog N R A) := fun _ => .fault kind

theorem Neutral.check (holds : Bool) : Neutral count (check holds : Prog N R Unit) := by
  rw [Memory.check]
  exact Neutral.ite (fun _ => .pure ()) fun _ => .fault _

theorem Neutral.vars : Neutral count (vars : Prog N R R) := by
  intro b s _ next here run
  cases run
  exact here

theorem Neutral.bound : Neutral count (bound : Prog N R Nat) := by
  intro b s _ next here run
  cases run
  exact here

/-- The variables change, the number does not. -/
theorem Neutral.setVars {g : R → R} (same : ∀ r, count (g r) = count r) : Neutral count (setVars g : Prog N R Unit) := by
  intro b s _ next here run
  cases run
  rw [← here, surplus, surplus, same]

theorem Neutral.load (p : Ptr) : Neutral count (load p : Prog N R N) := by
  intro b s n next here run
  cases p with
  | none => cases run
  | some a =>
      cases cell : s.heap.lookup a with
      | none => simp [Memory.load, cell] at run
      | some m =>
          rw [load_ok cell] at run
          cases run
          exact here

/-- What comes after a load has a pointer that is not NULL. -/
theorem Balances.load {f : N → Prog N R B} (later : p ≠ none → ∀ n, Balances count b c (f n)) :
    Balances count b c (Memory.load p >>= f) := by
  cases p with
  | none =>
      intro s a next _ run
      cases run
  | some _ => exact (Neutral.load _).then fun n => later nofun n

theorem keys_insert {h : Heap N} {a : Addr} {n : N} (cell : h.lookup a = some n) (m : N) :
    (h.insert a m).keys = h.keys := by
  ext c
  rw [Finmap.mem_keys, Finmap.mem_keys, Finmap.mem_insert]
  constructor
  · rintro (rfl | inside)
    · exact Finmap.mem_of_lookup_eq_some cell
    · exact inside
  · exact Or.inr

theorem Neutral.update (p : Ptr) (g : N → N) : Neutral count (update p g : Prog N R Unit) := by
  intro b s _ next here run
  cases p with
  | none => cases run
  | some a =>
      cases cell : s.heap.lookup a with
      | none => simp [Memory.update, cell] at run
      | some m =>
          rw [update_ok g cell] at run
          cases run
          rw [← here, surplus, surplus, keys_insert cell]

theorem Balances.alloc (system : Allocator N) : Balances count b (b + 1) (alloc system : Prog N R Ptr) := by
  intro s _ next here run
  cases run
  have fresh := system.pick_fresh s.tick s.heap.keys
  have keys : (s.heap.insert (system.pick s.tick s.heap.keys) (system.junk s.tick)).keys =
      insert (system.pick s.tick s.heap.keys) s.heap.keys := by
    ext c
    rw [Finmap.mem_keys, Finmap.mem_insert, Finset.mem_insert, Finmap.mem_keys]
  rw [surplus] at here ⊢
  rw [keys, Finset.card_insert_of_notMem fresh]
  push_cast
  omega

theorem Balances.free (some : p ≠ none) : Balances count b (b - 1) (free p : Prog N R Unit) := by
  intro s _ next here run
  cases p with
  | none => exact absurd rfl some
  | some a =>
      cases cell : s.heap.lookup a with
      | none => simp [Memory.free, cell] at run
      | some m =>
          rw [free_ok cell] at run
          cases run
          have inside : a ∈ s.heap.keys := Finmap.mem_keys.mpr (Finmap.mem_of_lookup_eq_some cell)
          have keys : (s.heap.erase a).keys = s.heap.keys.erase a := by
            ext c
            rw [Finmap.mem_keys, Finmap.mem_erase, Finset.mem_erase, Finmap.mem_keys]
          have positive := Finset.card_pos.mpr ⟨a, inside⟩
          rw [surplus] at here ⊢
          change ((s.heap.erase a).keys.card : Int) - count s.vars = b - 1
          rw [keys, Finset.card_erase_of_mem inside]
          omega

/-- The number goes up by one. -/
theorem Balances.countUp {g : R → R} (up : ∀ r, count (g r) = count r + 1) :
    Balances count (b + 1) b (setVars g : Prog N R Unit) := by
  intro s _ next here run
  cases run
  rw [surplus] at here ⊢
  change (s.heap.keys.card : Int) - count (g s.vars) = b
  rw [up]
  push_cast
  omega

/-- The number goes down by one; it does not go below zero, as there are more than `b` records. -/
theorem Balances.countDown {g : R → R} (down : ∀ r, count (g r) = count r - 1) (low : b ≤ 0) :
    Balances count (b - 1) b (setVars g : Prog N R Unit) := by
  intro s _ next here run
  cases run
  rw [surplus] at here ⊢
  change (s.heap.keys.card : Int) - count (g s.vars) = b
  rw [down]
  omega

end Numbers

section Sums

variable {N A : Type} [AddCommMonoid A]

def total (f : N → A) (h : Heap N) : A := ∑ a ∈ h.keys, (h.lookup a).elim 0 f

variable {f : N → A} {h : Heap N} {a : Addr} {n : N}

theorem total_empty (f : N → A) : total f (∅ : Heap N) = 0 := by
  rw [total, Finmap.keys_empty, Finset.sum_empty]

/-- A record comes on top of the others. -/
theorem total_insert (new : h.lookup a = none) (f : N → A) (n : N) : total f (h.insert a n) = f n + total f h := by
  have outside : a ∉ h.keys := by
    rw [Finmap.mem_keys]
    exact Finmap.lookup_eq_none.mp new
  have keys : (h.insert a n).keys = insert a h.keys := by
    ext b
    rw [Finmap.mem_keys, Finmap.mem_insert, Finset.mem_insert, Finmap.mem_keys]
  rw [total, keys, Finset.sum_insert outside, Finmap.lookup_insert, Option.elim_some]
  congr 1
  apply Finset.sum_congr rfl
  intro b inside
  have other : b ≠ a := fun here => outside (here ▸ inside)
  rw [Finmap.lookup_insert_of_ne _ other]

/-- A record that is taken off. -/
theorem total_erase (cell : h.lookup a = some n) (f : N → A) : total f h = f n + total f (h.erase a) := by
  have back : (h.erase a).insert a n = h := by
    apply Finmap.ext_lookup
    intro b
    by_cases here : b = a
    · rw [here, Finmap.lookup_insert, cell]
    · rw [Finmap.lookup_insert_of_ne _ here, Finmap.lookup_erase_ne here]
  have apart := total_insert (Finmap.lookup_erase a h) f n
  rwa [back] at apart

end Sums

end MnCommon.Memory
