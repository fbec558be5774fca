import Mathlib.Data.Multiset.Count
import Mathlib.Algebra.BigOperators.Group.Finset.Basic
import MnCommon.Memory.Records

/-! Records that count the references to them. -/

namespace MnCommon.Memory

variable {N R S A B : Type}

/-- What a program that may stop on purpose comes to. -/
inductive Sure (Q : A → S → Prop) : Except Fault (A × S) → Prop
  | ends {a : A} {next : S} (ends : Q a next) : Sure Q (.ok (a, next))
  | assertion : Sure Q (.error .assertion)
  | abort : Sure Q (.error .abort)

section Programs

variable {x : Prog N R A} {f : A → Prog N R B} {P : A → Store N R → Prop} {Q : B → Store N R → Prop} {s next : Store N R}
  {p : Ptr} {n : N} {a : Addr}

theorem Sure.of_ok {b : A} (run : x s = .ok (b, next)) (ends : P b next) : Sure P (x s) := by
  rw [run]
  exact .ends ends

theorem Sure.of_ends {Q : A → S → Prop} {b : A} {next : S} (sure : Sure Q (.ok (b, next))) : Q b next := by
  cases sure with
  | ends ends => exact ends

theorem Sure.of_error {Q : A → S → Prop} {kind : Fault} (sure : Sure Q (.error kind)) :
    kind = .assertion ∨ kind = .abort := by
  cases sure with
  | assertion => exact .inl rfl
  | abort => exact .inr rfl

theorem Sure.pure {b : A} (ends : P b s) : Sure P ((Pure.pure b : Prog N R A) s) := .ends ends

theorem Sure.bind (first : Sure P (x s)) (later : ∀ a next, P a next → Sure Q (f a next)) : Sure Q ((x >>= f) s) := by
  rw [run_bind]
  cases run : x s with
  | error kind =>
      rw [run] at first
      cases first with
      | assertion => exact .assertion
      | abort => exact .abort
  | ok result =>
      rw [run] at first
      exact later result.1 result.2 first.of_ends

/-- An assertion holds from there on. -/
theorem Sure.check {f : Unit → Prog N R B} {holds : Bool} (later : holds = true → Sure Q (f () s)) :
    Sure Q ((Memory.check holds >>= f) s) := by
  cases holds with
  | false => exact .assertion
  | true => exact later rfl

theorem Sure.load {f : N → Prog N R B} (cell : s.heap.lookup a = some n) (later : Sure Q (f n s)) :
    Sure Q ((Memory.load (some a) >>= f) s) := by
  rw [bind_ok (load_ok cell)]
  exact later

end Programs

/-- Where a record keeps its count. -/
structure Counter (N : Type) where
  get : N → Int
  up : N → N
  down : N → N
  get_up : ∀ n, get (up n) = get n + 1
  get_down : ∀ n, get (down n) = get n - 1

section References

variable (K : Counter N)

def incref (p : Ptr) : Prog N R Unit := update p K.up

/-- A record goes with the last reference to it. -/
def decref (p : Ptr) : Prog N R Unit := do
  if p ≠ none then
    update p K.down
    if K.get (← load p) ≤ 0 then
      free p

/-- The counts are right for some references, and there are no records but those that are referred to and
some fresh ones that nothing has referred to yet. -/
structure Counted (refs : Multiset Addr) (fresh : Finset Addr) (h : Heap N) : Prop where
  count : ∀ a n, h.lookup a = some n → K.get n = refs.count a
  alive : ∀ a, a ∈ h ↔ a ∈ refs ∨ a ∈ fresh
  unused : ∀ a ∈ fresh, a ∉ refs

variable {K} {refs : Multiset Addr} {fresh : Finset Addr} {h : Heap N} {s : Store N R} {a : Addr}

theorem Counted.empty : Counted K 0 ∅ (∅ : Heap N) := by
  constructor
  · intro a n cell
    rw [Finmap.lookup_empty] at cell
    cases cell
  · intro a
    simp [Finmap.notMem_empty]
  · intro a inside
    exact absurd inside (Finset.notMem_empty a)

theorem Counted.cell (counted : Counted K refs fresh h) (known : a ∈ refs ∨ a ∈ fresh) : ∃ n, h.lookup a = some n :=
  Finmap.mem_iff.mp ((counted.alive a).mpr known)

/-- One more reference. -/
theorem Counted.incref (counted : Counted K refs fresh s.heap) (known : a ∈ refs ∨ a ∈ fresh) :
    ∃ next, Memory.incref K (some a) s = .ok ((), next) ∧ Counted K (a ::ₘ refs) (fresh.erase a) next.heap ∧
      next.vars = s.vars := by
  rcases counted.cell known with ⟨n, cell⟩
  refine ⟨_, update_ok K.up cell, ⟨?_, ?_, ?_⟩, rfl⟩
  · intro c m here
    by_cases same : c = a
    · subst same
      rw [Finmap.lookup_insert, Option.some.injEq] at here
      rw [← here, K.get_up, counted.count c n cell, Multiset.count_cons_self]
      rfl
    · rw [Finmap.lookup_insert_of_ne _ same] at here
      rw [counted.count c m here, Multiset.count_cons_of_ne same]
  · intro c
    rw [Finmap.mem_insert, counted.alive c, Multiset.mem_cons, Finset.mem_erase]
    by_cases same : c = a
    · simp [same]
    · simp [same]
  · intro c inside
    rcases Finset.mem_erase.mp inside with ⟨other, member⟩
    rw [Multiset.mem_cons, not_or]
    exact ⟨other, counted.unused c member⟩

/-- One reference less. -/
theorem Counted.decref (counted : Counted K (a ::ₘ refs) fresh s.heap) :
    ∃ next, Memory.decref K (some a) s = .ok ((), next) ∧ Counted K refs fresh next.heap ∧ next.vars = s.vars := by
  rcases counted.cell (.inl (Multiset.mem_cons_self a refs)) with ⟨n, cell⟩
  have referred : a ∉ fresh := fun inside => counted.unused a inside (Multiset.mem_cons_self a refs)
  have left : K.get (K.down n) = refs.count a := by
    rw [K.get_down, counted.count a n cell, Multiset.count_cons_self]
    push_cast
    omega
  have lowered := update_ok K.down cell
  have loaded : load (some a) ({ s with heap := s.heap.insert a (K.down n) } : Store N R) = .ok (K.down n, _) :=
    load_ok (Finmap.lookup_insert _)
  have others (c : Addr) (m : N) (other : c ≠ a) (here : s.heap.lookup c = some m) : K.get m = refs.count c := by
    rw [counted.count c m here, Multiset.count_cons_of_ne other]
  have run : Memory.decref K (some a) s =
      (if K.get (K.down n) ≤ 0 then free (some a) else pure ()) { s with heap := s.heap.insert a (K.down n) } := by
    rw [Memory.decref, if_pos (Option.some_ne_none a), bind_ok lowered, bind_ok loaded]
  by_cases last : K.get (K.down n) ≤ 0
  · have none : a ∉ refs := by
      rw [left] at last
      exact Multiset.count_eq_zero.mp (by omega)
    let next : Store N R := { s with heap := (s.heap.insert a (K.down n)).erase a }
    have freed : free (some a) ({ s with heap := s.heap.insert a (K.down n) } : Store N R) = .ok ((), next) :=
      free_ok (Finmap.lookup_insert _)
    refine ⟨next, by rw [run, if_pos last, freed], ⟨?_, ?_, ?_⟩, rfl⟩
    · intro c m here
      have other : c ≠ a := by
        rintro rfl
        rw [Finmap.lookup_erase] at here
        cases here
      rw [Finmap.lookup_erase_ne other, Finmap.lookup_insert_of_ne _ other] at here
      exact others c m other here
    · intro c
      rw [Finmap.mem_erase, Finmap.mem_insert, counted.alive c, Multiset.mem_cons]
      by_cases same : c = a
      · simp [same, none, referred]
      · simp [same]
    · exact fun c inside member => counted.unused c inside (Multiset.mem_cons_of_mem member)
  · have some : a ∈ refs := by
      rw [left] at last
      exact Multiset.count_pos.mp (by omega)
    let next : Store N R := { s with heap := s.heap.insert a (K.down n) }
    refine ⟨next, by rw [run, if_neg last]; rfl, ⟨?_, ?_, ?_⟩, rfl⟩
    · intro c m here
      by_cases same : c = a
      · subst same
        rw [Finmap.lookup_insert, Option.some.injEq] at here
        rw [← here, left]
      · rw [Finmap.lookup_insert_of_ne _ same] at here
        exact others c m same here
    · intro c
      rw [Finmap.mem_insert, counted.alive c, Multiset.mem_cons]
      by_cases same : c = a
      · simp [same, some]
      · simp [same]
    · exact fun c inside member => counted.unused c inside (Multiset.mem_cons_of_mem member)

/-- A new record without references. -/
theorem Counted.create (counted : Counted K refs fresh s.heap) (system : Allocator N) {n : N} (zero : K.get n = 0) :
    ∃ a next, (do
        let p ← alloc system
        update p fun _ => n
        return p : Prog N R Ptr) s = .ok (some a, next) ∧
      Counted K refs (insert a fresh) next.heap ∧ next.vars = s.vars ∧ a ∉ s.heap := by
  let a := system.pick s.tick s.heap.keys
  have new : a ∉ s.heap := by
    rw [← Finmap.mem_keys]
    exact system.pick_fresh s.tick s.heap.keys
  have unknown : a ∉ refs ∧ a ∉ fresh := by
    rw [counted.alive a, not_or] at new
    exact new
  let made : Store N R := { s with heap := s.heap.insert a (system.junk s.tick), tick := s.tick + 1 }
  have stored := update_ok (s := made) (fun _ => n) (Finmap.lookup_insert (b := system.junk s.tick) s.heap)
  have first : alloc system s = .ok (some a, made) := rfl
  let next : Store N R := { made with heap := made.heap.insert a n }
  refine ⟨a, next, by rw [bind_ok first, bind_ok stored]; rfl, ⟨?_, ?_, ?_⟩, rfl, new⟩
  · intro c m here
    by_cases same : c = a
    · subst same
      rw [Finmap.lookup_insert, Option.some.injEq] at here
      rw [← here, zero, Multiset.count_eq_zero.mpr unknown.1]
      rfl
    · rw [Finmap.lookup_insert_of_ne _ same, Finmap.lookup_insert_of_ne _ same] at here
      exact counted.count c m here
  · intro c
    rw [Finmap.mem_insert, Finmap.mem_insert, counted.alive c, Finset.mem_insert]
    tauto
  · intro c inside
    rcases Finset.mem_insert.mp inside with rfl | member
    · exact unknown.1
    · exact counted.unused c member

/-- Without references and fresh records nothing is left. -/
theorem Counted.heap_eq (counted : Counted K 0 ∅ h) : h = ∅ := by
  apply Finmap.ext_lookup
  intro a
  rw [Finmap.lookup_empty, Finmap.lookup_eq_none, counted.alive a]
  simp

end References

end MnCommon.Memory
