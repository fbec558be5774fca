import MnCommon.Memory.Chain

/-! The intrusive queues of `dtqueue.h` and `stqueue.h`. The entries lie on the
heap of the client; any number of queues may link them. `PASTEURIZE_ADDR` is empty
where assertions are off, and so it is here. -/

namespace MnCommon.Queues

open Memory

/-- `DTQUEUE_ENTRY`. -/
structure DtqueueEntry where
  dtqNext : Ptr
  dtqPrev : Ptr
  deriving DecidableEq, Repr

/-- `DTQUEUE`. -/
structure Dtqueue where
  dtqHead : Ptr
  dtqTail : Ptr
  nelems : Nat
  deriving DecidableEq, Repr

/-- `DTQUEUE_INIT`. -/
def Dtqueue.init : Dtqueue := ⟨none, none, 0⟩

abbrev DtStore := Store DtqueueEntry (Nat → Dtqueue)

abbrev DtProg := Prog DtqueueEntry (Nat → Dtqueue)

def dtqueue (q : Nat) : DtProg Dtqueue := do
  let queues ← vars
  pure (queues q)

def setDtqueue (q : Nat) (f : Dtqueue → Dtqueue) : DtProg Unit :=
  setVars fun queues => Function.update queues q (f (queues q))

def setDtqNext (entry target : Ptr) : DtProg Unit := update entry fun n => { n with dtqNext := target }

def setDtqPrev (entry target : Ptr) : DtProg Unit := update entry fun n => { n with dtqPrev := target }

/-- `DTQUEUE_ENTRY_INIT`, which `DTQUEUE_ENTRY_FINI` is another name of. -/
def dtqueueEntryInit (entry : Ptr) : DtProg Unit := do
  setDtqNext entry none
  setDtqPrev entry none

/-- `DTQUEUE_ENQUEUE`. -/
def dtqueueEnqueue (q : Nat) (entry : Ptr) : DtProg Unit := do
  let queue ← dtqueue q
  if queue.dtqTail = none then
    setDtqueue q fun v => { v with dtqHead := entry, dtqTail := entry }
  else
    setDtqNext queue.dtqTail entry
    setDtqPrev entry queue.dtqTail
    setDtqNext entry none
    setDtqueue q fun v => { v with dtqTail := entry }
  setDtqueue q fun v => { v with nelems := v.nelems + 1 }

/-- `DTQUEUE_DEQUEUE`. -/
def dtqueueDequeue (q : Nat) : DtProg Unit := do
  let queue ← dtqueue q
  if queue.dtqHead ≠ none then
    let first ← load queue.dtqHead
    setDtqueue q fun v => { v with dtqHead := first.dtqNext }
    if first.dtqNext = none then
      setDtqueue q fun v => { v with dtqTail := none }
    else
      setDtqPrev first.dtqNext none
    setDtqueue q fun v => { v with nelems := v.nelems - 1 }
  else
    setDtqueue q fun v => { v with dtqTail := none }

/-- `DTQUEUE_POP`. -/
def dtqueuePop (q : Nat) : DtProg Unit := do
  let queue ← dtqueue q
  if queue.dtqTail ≠ none then
    let last ← load queue.dtqTail
    setDtqueue q fun v => { v with dtqTail := last.dtqPrev }
    if last.dtqPrev = none then
      setDtqueue q fun v => { v with dtqHead := none }
    else
      setDtqNext last.dtqPrev none
    setDtqueue q fun v => { v with nelems := v.nelems - 1 }
  else
    setDtqueue q fun v => { v with dtqHead := none }

/-- `DTQUEUE_REMOVE_DIRTY`. -/
def dtqueueRemoveDirty (q : Nat) (e : Ptr) : DtProg Unit := do
  let queue ← dtqueue q
  if queue.dtqHead ≠ none ∧ queue.dtqTail ≠ none then
    let n ← load e
    if n.dtqPrev ≠ none then
      if n.dtqNext ≠ none then
        setDtqNext n.dtqPrev n.dtqNext
        setDtqPrev n.dtqNext n.dtqPrev
      else
        setDtqueue q fun v => { v with dtqTail := n.dtqPrev }
        setDtqNext n.dtqPrev none
    else
      if n.dtqNext ≠ none then
        setDtqueue q fun v => { v with dtqHead := n.dtqNext }
        setDtqPrev n.dtqNext none
      else
        setDtqueue q fun v => { v with dtqTail := none }
        setDtqueue q fun v => { v with dtqHead := none }
    setDtqueue q fun v => { v with nelems := v.nelems - 1 }

/-- `DTQUEUE_REMOVE`. -/
def dtqueueRemove (q : Nat) (e : Ptr) : DtProg Unit := do
  dtqueueRemoveDirty q e
  dtqueueEntryInit e

/-- `DTQUEUE_INSERT_BEFORE`. -/
def dtqueueInsertBefore (q : Nat) (b e : Ptr) : DtProg Unit := do
  check (b ≠ none ∧ e ≠ none)
  let n ← load b
  if n.dtqPrev = none then
    setDtqueue q fun v => { v with dtqHead := e }
    setDtqPrev e none
    setDtqPrev b e
    setDtqNext e b
  else
    setDtqPrev e n.dtqPrev
    setDtqPrev b e
    -- the left neighbour is read back from the new entry
    let m ← load e
    setDtqNext m.dtqPrev e
    setDtqNext e b
  setDtqueue q fun v => { v with nelems := v.nelems + 1 }

/-- `STQUEUE_ENTRY`. -/
structure StqueueEntry where
  stqNext : Ptr
  deriving DecidableEq, Repr

/-- `STQUEUE`. -/
structure Stqueue where
  stqHead : Ptr
  stqTail : Ptr
  nelems : Nat
  deriving DecidableEq, Repr

/-- `STQUEUE_INIT`. -/
def Stqueue.init : Stqueue := ⟨none, none, 0⟩

abbrev StStore := Store StqueueEntry (Nat → Stqueue)

abbrev StProg := Prog StqueueEntry (Nat → Stqueue)

def stqueue (q : Nat) : StProg Stqueue := do
  let queues ← vars
  pure (queues q)

def setStqueue (q : Nat) (f : Stqueue → Stqueue) : StProg Unit :=
  setVars fun queues => Function.update queues q (f (queues q))

def setStqNext (entry target : Ptr) : StProg Unit := update entry fun n => { n with stqNext := target }

/-- `STQUEUE_ENQUEUE`. -/
def stqueueEnqueue (q : Nat) (entry : Ptr) : StProg Unit := do
  let queue ← stqueue q
  if queue.stqTail = none then
    setStqueue q fun v => { v with stqHead := entry, stqTail := entry }
  else
    setStqNext queue.stqTail entry
    setStqNext entry none
    setStqueue q fun v => { v with stqTail := entry }
  setStqueue q fun v => { v with nelems := v.nelems + 1 }

/-- `STQUEUE_DEQUEUE`. -/
def stqueueDequeue (q : Nat) : StProg Unit := do
  let queue ← stqueue q
  if queue.stqHead ≠ none then
    let first ← load queue.stqHead
    setStqueue q fun v => { v with stqHead := first.stqNext }
    if first.stqNext = none then
      setStqueue q fun v => { v with stqTail := none }
    setStqueue q fun v => { v with nelems := v.nelems - 1 }
  else
    setStqueue q fun v => { v with stqTail := none }

/-- The entries of each queue, first to last. -/
abbrev Rows := Nat → List Addr

/-- Puts an entry in front of another one. -/
def insertBefore (b e : Addr) : List Addr → List Addr
  | [] => []
  | a :: rest => if a = b then e :: a :: rest else a :: insertBefore b e rest

/-- The calls of the macros. -/
inductive DtOp where
  | entryInit (e : Addr)
  | enqueue (q : Nat) (e : Addr)
  | dequeue (q : Nat)
  | pop (q : Nat)
  | remove (q : Nat) (e : Addr)
  | insertBefore (q : Nat) (b e : Addr)

/-- What a call does to the rows. -/
def DtOp.spec (xs : Rows) : DtOp → Rows
  | .entryInit _ => xs
  | .enqueue q e => Function.update xs q (xs q ++ [e])
  | .dequeue q => Function.update xs q (xs q).tail
  | .pop q => Function.update xs q (xs q).dropLast
  | .remove q e => Function.update xs q ((xs q).erase e)
  | .insertBefore q b e => Function.update xs q (Queues.insertBefore b e (xs q))

def DtOp.prog : DtOp → DtProg Unit
  | .entryInit e => dtqueueEntryInit (some e)
  | .enqueue q e => dtqueueEnqueue q (some e)
  | .dequeue q => dtqueueDequeue q
  | .pop q => dtqueuePop q
  | .remove q e => dtqueueRemove q (some e)
  | .insertBefore q b e => dtqueueInsertBefore q (some b) (some e)

/-- One call and, beside it, its effect on the rows. -/
def dtStep (op : DtOp) (s : DtStore × Rows) : Except Fault (Unit × (DtStore × Rows)) :=
  (op.prog s.1).map fun result => ((), result.2, op.spec s.2)

inductive StOp where
  | enqueue (q : Nat) (e : Addr)
  | dequeue (q : Nat)

def StOp.spec (xs : Rows) : StOp → Rows
  | .enqueue q e => Function.update xs q (xs q ++ [e])
  | .dequeue q => Function.update xs q (xs q).tail

def StOp.prog : StOp → StProg Unit
  | .enqueue q e => stqueueEnqueue q (some e)
  | .dequeue q => stqueueDequeue q

def stStep (op : StOp) (s : StStore × Rows) : Except Fault (Unit × (StStore × Rows)) :=
  (op.prog s.1).map fun result => ((), result.2, op.spec s.2)

end MnCommon.Queues
