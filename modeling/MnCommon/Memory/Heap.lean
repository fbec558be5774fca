import Mathlib.Data.Finmap
import Mathlib.Order.Lattice.Nat

/-! A heap of records, programs that read and update it through pointers, and
an arbitrary allocator. A program either returns or stops at the first fault. -/

namespace MnCommon.Memory

abbrev Addr := Nat

/-- A machine pointer; `none` is NULL. -/
abbrev Ptr := Option Addr

abbrev Heap (N : Type) := Finmap (fun _ : Addr => N)

inductive Fault where
  | nullDereference
  | dangling
  | assertion
  | abort
  | outOfFuel
  deriving DecidableEq, Repr

/-- Any behaviour of the system allocator that never fails: the address handed
out may depend on the history, is free at that moment, and the contents of the
new record are indeterminate. -/
structure Allocator (N : Type) where
  pick : Nat → Finset Addr → Addr
  junk : Nat → N
  pick_fresh : ∀ tick live, pick tick live ∉ live

theorem bump_fresh (_ : Nat) (live : Finset Addr) : live.sup id + 1 ∉ live := by
  intro inside
  have top := Finset.le_sup (f := id) inside
  exact absurd top (Nat.not_succ_le_self _)

/-- An allocator that hands out the address after the highest one in use. -/
def Allocator.bump {N : Type} (junk : N) : Allocator N where
  pick _ live := live.sup id + 1
  junk _ := junk
  pick_fresh := bump_fresh

/-- The records on the heap, the variables of the component outside of it, and
the number of allocations made so far. -/
structure Store (N R : Type) where
  heap : Heap N
  vars : R
  tick : Nat

abbrev Prog (N R : Type) := StateT (Store N R) (Except Fault)

variable {N R A B : Type}

def fault (kind : Fault) : Prog N R A := fun _ => .error kind

def check (holds : Bool) : Prog N R Unit :=
  if holds then pure () else fault .assertion

def load : Ptr → Prog N R N
  | none => fault .nullDereference
  | some a => fun s =>
      match s.heap.lookup a with
      | none => .error .dangling
      | some n => .ok (n, s)

def update : Ptr → (N → N) → Prog N R Unit
  | none, _ => fault .nullDereference
  | some a, f => fun s =>
      match s.heap.lookup a with
      | none => .error .dangling
      | some n => .ok ((), { s with heap := s.heap.insert a (f n) })

def alloc (system : Allocator N) : Prog N R Ptr := fun s =>
  let a := system.pick s.tick s.heap.keys
  .ok (some a, { s with heap := s.heap.insert a (system.junk s.tick), tick := s.tick + 1 })

def free : Ptr → Prog N R Unit
  | none => pure ()
  | some a => fun s =>
      match s.heap.lookup a with
      | none => .error .dangling
      | some _ => .ok ((), { s with heap := s.heap.erase a })

/-- The caller writes a whole record into storage of its own. -/
def place (a : Addr) (n : N) : Prog N R Unit := fun s =>
  .ok ((), { s with heap := s.heap.insert a n })

def vars : Prog N R R := fun s => .ok (s.vars, s)

def setVars (f : R → R) : Prog N R Unit := fun s => .ok ((), { s with vars := f s.vars })

/-- One more than the number of records: no walk that visits each record at
most once takes more steps. -/
def Store.bound (s : Store N R) : Nat := s.heap.keys.card + 1

def bound : Prog N R Nat := fun s => .ok (s.bound, s)

theorem run_bind (x : Prog N R A) (f : A → Prog N R B) (s : Store N R) :
    (x >>= f) s = match x s with
      | .ok (a, next) => f a next
      | .error kind => .error kind := by
  change (x s).bind _ = _
  cases x s <;> rfl

theorem run_pure (a : A) (s : Store N R) : (pure a : Prog N R A) s = .ok (a, s) := rfl

theorem run_ite (c : Prop) [Decidable c] (x y : Prog N R A) (s : Store N R) :
    (if c then x else y) s = if c then x s else y s := by
  split <;> rfl

theorem bind_ok {x : Prog N R A} {s next : Store N R} {a : A} (first : x s = .ok (a, next))
    (f : A → Prog N R B) : (x >>= f) s = f a next := by
  rw [run_bind, first]

theorem bound_bind (f : Nat → Prog N R A) (s : Store N R) : (bound >>= f) s = f s.bound s := rfl

theorem check_bind (f : Unit → Prog N R A) : (check true >>= f) = f () := rfl

theorem load_ok {s : Store N R} {a : Addr} {n : N} (cell : s.heap.lookup a = some n) :
    load (some a) s = .ok (n, s) := by
  simp only [load, cell]

theorem update_ok {s : Store N R} {a : Addr} {n : N} (f : N → N)
    (cell : s.heap.lookup a = some n) :
    update (some a) f s = .ok ((), { s with heap := s.heap.insert a (f n) }) := by
  simp only [update, cell]

theorem free_ok {s : Store N R} {a : Addr} {n : N} (cell : s.heap.lookup a = some n) :
    free (some a) s = .ok ((), { s with heap := s.heap.erase a }) := by
  simp only [free, cell]

end MnCommon.Memory
