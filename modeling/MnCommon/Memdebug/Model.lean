import MnCommon.Memory.Heap
import Mathlib.Data.List.Basic

/-! The accounts of `memdebug.c` around the allocator of the system. -/

namespace MnCommon.Memdebug

open Memory

/-- `memdebug_ctx_t` without its name and its number. -/
structure MemdebugCtx where
  nallocated : UInt64
  ncallocated : UInt64
  ncfreed : UInt64
  nitems : UInt64
  deriving DecidableEq, Repr

/-- A block of the system, with what `malloc_usable_size` tells of it. `owner` is the
number of the context that it was allocated with; nothing in the code reads it. -/
structure Block where
  usable : UInt64
  owner : Int
  deriving DecidableEq, Repr

/-- The contexts that are registered, and the one that is charged with all calls. -/
structure Contexts where
  ctxes : List MemdebugCtx
  runtimeScope : Int

abbrev MemdebugStore := Store Block Contexts

abbrev MemdebugProg := Prog Block Contexts

/-- The system: which requests it grants, with how many usable bytes, and which are
resized in place. `realloc` for no bytes may release the block and return NULL. -/
structure System where
  pick : Nat → Finset Addr → Addr
  pick_fresh : ∀ tick live, pick tick live ∉ live
  grants : Nat → Bool
  usable : Nat → Nat → UInt64
  stays : Nat → Bool
  releases : Nat → Bool

def countofCtxes : Nat := 256

section Allocation

variable (system : System) (n : Int)

def refuse : MemdebugProg Ptr := fun s => .ok (none, { s with tick := s.tick + 1 })

def malloc (sz : Nat) : MemdebugProg Ptr := fun s =>
  if system.grants s.tick = true then
    let a := system.pick s.tick s.heap.keys
    .ok (some a, { s with heap := s.heap.insert a ⟨system.usable s.tick sz, n⟩, tick := s.tick + 1 })
  else refuse s

/-- A product that does not fit into a `size_t` is refused. -/
def calloc (e sz : Nat) : MemdebugProg Ptr :=
  if e * sz < 2 ^ 64 then malloc system n (e * sz) else refuse

def realloc (ptr : Ptr) (sz : Nat) : MemdebugProg Ptr :=
  match ptr with
  | none => malloc system n sz
  | some a => load ptr >>= fun _ => fun s =>
      if sz = 0 ∧ system.releases s.tick = true then
        .ok (none, { s with heap := s.heap.erase a, tick := s.tick + 1 })
      else if system.grants s.tick = true then
        let b := if system.stays s.tick then a else system.pick s.tick s.heap.keys
        .ok (some b, { s with
          heap := (s.heap.erase a).insert b ⟨system.usable s.tick sz, n⟩, tick := s.tick + 1 })
      else refuse s

/-- The `reallocf` of the file, for systems that have none. -/
def reallocf (ptr : Ptr) (sz : Nat) : MemdebugProg Ptr :=
  realloc system n ptr sz >>= fun tmp =>
  if tmp = none then free ptr >>= fun _ => pure tmp else pure tmp

def mallocUsableSize (ptr : Ptr) : MemdebugProg UInt64 :=
  match ptr with
  | none => pure 0
  | some _ => load ptr >>= fun block => pure block.usable

/-- The copy of a string is a block with room for it and its NUL. -/
def strdup (str : List UInt8) : MemdebugProg Ptr := malloc system n (str.length + 1)

def strndup (str : List UInt8) (len : Nat) : MemdebugProg Ptr := malloc system n (min str.length len + 1)

end Allocation

/-- What a macro books on one context for a block of some size. -/
abbrev Entry := UInt64 → MemdebugCtx → MemdebugCtx

def bookOn (entry : Entry) (sz : UInt64) (n : Int) (v : Contexts) : Contexts :=
  if n < v.ctxes.length then { v with ctxes := v.ctxes.modify n.toNat (entry sz) } else v

/-- `MEMDEBUG_BODY` -/
def memdebugBody (n : Int) (entry : Entry) (ptr : Ptr) : MemdebugProg Unit :=
  if ptr = none then pure ()
  else
    check (0 ≤ n ∧ n < countofCtxes) >>= fun _ =>
    mallocUsableSize ptr >>= fun sz =>
    setVars (bookOn entry sz n) >>= fun _ =>
    vars >>= fun v =>
    if 0 ≤ v.runtimeScope then
      check (v.runtimeScope < countofCtxes) >>= fun _ =>
      setVars (bookOn entry sz v.runtimeScope)
    else pure ()

/-- `+=` and `++`, with the bytes that are put down as allocated. -/
def inc (more : UInt64 → UInt64) : Entry := fun sz ctx =>
  { ctx with
    nallocated := ctx.nallocated + sz, ncallocated := ctx.ncallocated + more sz, nitems := ctx.nitems + 1 }

/-- `-=` and `--`, with the bytes that are put down as freed. -/
def dec (more : UInt64 → UInt64) : Entry := fun sz ctx =>
  { ctx with nallocated := ctx.nallocated - sz, ncfreed := ctx.ncfreed + more sz, nitems := ctx.nitems - 1 }

def memdebugBodyInc (n : Int) : Ptr → MemdebugProg Unit := memdebugBody n (inc id)

def memdebugBodyDec (n : Int) : Ptr → MemdebugProg Unit := memdebugBody n (dec id)

section Wrappers

variable (system : System) (n : Int)

/-- An allocation whose result is booked. -/
def booked (request : MemdebugProg Ptr) : MemdebugProg Ptr :=
  request >>= fun res =>
  memdebugBodyInc n res >>= fun _ =>
  pure res

def memdebugMalloc (sz : UInt64) : MemdebugProg Ptr := booked n (malloc system n sz.toNat)

def memdebugCalloc (e sz : UInt64) : MemdebugProg Ptr := booked n (calloc system n e.toNat sz.toNat)

def memdebugRealloc (ptr : Ptr) (sz : UInt64) : MemdebugProg Ptr :=
  mallocUsableSize ptr >>= fun sz0 =>
  memdebugBody n (dec fun _ => 0) ptr >>= fun _ =>
  realloc system n ptr sz.toNat >>= fun res =>
  memdebugBody n (inc fun _ => if sz < sz0 then 0 else sz - sz0) res >>= fun _ =>
  pure res

def memdebugReallocf (ptr : Ptr) (sz : UInt64) : MemdebugProg Ptr :=
  memdebugBodyDec n ptr >>= fun _ =>
  booked n (reallocf system n ptr sz.toNat)

def memdebugFree (ptr : Ptr) : MemdebugProg Unit :=
  memdebugBodyDec n ptr >>= fun _ =>
  free ptr

def memdebugStrdup (str : List UInt8) : MemdebugProg Ptr := booked n (strdup system n str)

def memdebugStrndup (str : List UInt8) (len : UInt64) : MemdebugProg Ptr := booked n (strndup system n str len.toNat)

end Wrappers

/-- The number of a new context. -/
def memdebugRegister : MemdebugProg Nat :=
  vars >>= fun v =>
  check (v.ctxes.length < countofCtxes) >>= fun _ =>
  setVars (fun v => { v with ctxes := v.ctxes ++ [⟨0, 0, 0, 0⟩] }) >>= fun _ =>
  pure v.ctxes.length

inductive MemdebugOp where
  | malloc (n : Int) (sz : UInt64)
  | calloc (n : Int) (e sz : UInt64)
  | realloc (n : Int) (ptr : Ptr) (sz : UInt64)
  | reallocf (n : Int) (ptr : Ptr) (sz : UInt64)
  | free (n : Int) (ptr : Ptr)
  | strdup (n : Int) (str : List UInt8)
  | strndup (n : Int) (str : List UInt8) (len : UInt64)

def step (system : System) : MemdebugOp → MemdebugProg Ptr
  | .malloc n sz => memdebugMalloc system n sz
  | .calloc n e sz => memdebugCalloc system n e sz
  | .realloc n ptr sz => memdebugRealloc system n ptr sz
  | .reallocf n ptr sz => memdebugReallocf system n ptr sz
  | .free n ptr => memdebugFree n ptr >>= fun _ => pure none
  | .strdup n str => memdebugStrdup system n str
  | .strndup n str len => memdebugStrndup system n str len

/-- What a context tells of itself. Its number stands for its name. -/
structure MemdebugStat where
  number : Nat
  nallocated : UInt64
  ncallocated : UInt64
  ncfreed : UInt64
  nitems : UInt64
  deriving DecidableEq, Repr

section Stats

/-- The lines of `memdebug_traverse_ctxes` and `memdebug_stat` that fill in what is told. What has been
allocated and freed since then is counted anew. -/
def tell (i : Nat) : MemdebugProg MemdebugStat :=
  vars >>= fun v =>
  match v.ctxes[i]? with
  | none => fault .dangling
  | some ctx =>
      setVars (fun v => { v with ctxes := v.ctxes.set i { ctx with ncallocated := 0, ncfreed := 0 } }) >>= fun _ =>
      pure ⟨i, ctx.nallocated, ctx.ncallocated, ctx.ncfreed, ctx.nitems⟩

/-- A negative number passes the assertion. -/
def memdebugStat (n : Int) : MemdebugProg MemdebugStat :=
  vars >>= fun v =>
  check (n < v.ctxes.length) >>= fun _ =>
  if 0 ≤ n then tell n.toNat else fault .dangling

variable (cb : List MemdebugStat → MemdebugStat → Int)

/-- The loop over as many contexts as are given, from one on. What has been told so far may decide what the
callback answers. -/
def traverseFrom : Nat → Nat → List MemdebugStat → MemdebugProg (List MemdebugStat)
  | 0, _, told => pure told
  | count + 1, i, told =>
      tell i >>= fun st =>
      if cb told st ≠ 0 then pure (told ++ [st]) else traverseFrom count (i + 1) (told ++ [st])

def memdebugTraverseCtxes : MemdebugProg (List MemdebugStat) :=
  vars >>= fun v => traverseFrom cb v.ctxes.length 0 []

end Stats

/-- The answer is the scope that was set before. -/
def memdebugSetRuntimeScope (n : Int) : MemdebugProg Int :=
  vars >>= fun v =>
  setVars (fun v => { v with runtimeScope := if n < 0 ∨ v.ctxes.length ≤ n then -1 else n }) >>= fun _ =>
  pure v.runtimeScope

def memdebugGetRuntimeScope : MemdebugProg Int := vars >>= fun v => pure v.runtimeScope

end MnCommon.Memdebug
