import MnCommon.Memory.Heap
import Mathlib.Data.List.GetD

/-! The indexed linked list of `list.c`: a chain of entries and an array of pointers
to them. Requests for memory may be refused at any time. -/

namespace MnCommon.IndexedList

open Memory

/-- `struct _dlist_entry` with the data behind it. -/
structure ListEntry (D : Type) where
  next : Ptr
  prev : Ptr
  data : D
  deriving DecidableEq, Repr

/-- A function pointer `int (*)(void *)`. What a call answers and leaves behind may
depend on the calls made so far. -/
structure Callback (D : Type) where
  answer : Nat → Int
  write : Nat → D → D

/-- `list_t` without its `compar`. -/
structure ListT (D : Type) where
  elsz : Nat
  elnum : Nat
  head : Ptr
  tail : Ptr
  index : Option (List Ptr)
  init : Option (Callback D)
  fini : Option (Callback D)

/-- The values of the error codes, by the names that they are counted from. -/
inductive Code where
  | ok
  | dlistInit (n : Nat)
  | listInit (n : Nat)
  | listReinit (n : Nat)
  | listEnsureLen (n : Nat)
  | listDecr (n : Nat)
  deriving DecidableEq, Repr

/-- The lists of a program and those of them that are set up; the calls of callbacks
so far, and whether a request for memory was refused or an `init` answered with an error. -/
structure Lists (D : Type) where
  lists : Nat → ListT D
  live : Nat → Bool
  calls : Nat
  failed : Bool

abbrev ListStore (D : Type) := Store (ListEntry D) (Lists D)

abbrev ListProg (D : Type) := Prog (ListEntry D) (Lists D)

/-- The system: the requests that it grants, of which at most `space` records are
there at a time, and the contents of a new index. -/
structure System (D : Type) extends Allocator (ListEntry D) where
  space : Nat
  grants : Nat → Bool
  stray : Nat → Nat → Ptr

def LIST_FLAG_SAVE : UInt32 := 0x01

def saves (flags : UInt32) : Bool := flags &&& LIST_FLAG_SAVE != 0

def sizeofEntry : Nat := 16

def sizeofPtr : Nat := 8

variable {D : Type} (system : System D)

def refuse {A : Type} : ListProg D (Option A) := fun s =>
  .ok (none, { s with vars := { s.vars with failed := true }, tick := s.tick + 1 })

/-- `malloc` of an entry. Where the size wraps, the links are not within what it returns. -/
def mallocEntry (elsz : Nat) : ListProg D Ptr := fun s =>
  if system.grants s.tick = true ∧ s.heap.keys.card < system.space then
    if sizeofEntry + elsz < 2 ^ 64 then alloc system.toAllocator s else .error .dangling
  else refuse s

/-- `realloc` of an index for `n` entries; the size may wrap. -/
def reallocIndex (index : Option (List Ptr)) (n : Nat) : ListProg D (Option (List Ptr)) := fun s =>
  if system.grants s.tick = true then
    .ok (some ((List.range (sizeofPtr * n % 2 ^ 64 / sizeofPtr)).map fun i =>
      (index.getD []).getD i (system.stray s.tick i)), { s with tick := s.tick + 1 })
  else refuse s

/-- `lst->index[i] = p` -/
def setIndex (lst : ListT D) (i : Nat) (p : Ptr) : ListProg D (ListT D) :=
  match lst.index with
  | none => fault .nullDereference
  | some entries => if i < entries.length then pure { lst with index := some (entries.set i p) } else fault .dangling

/-- `lst->index[i]` -/
def getIndex (lst : ListT D) (i : Nat) : ListProg D Ptr :=
  match lst.index with
  | none => fault .nullDereference
  | some entries => entries[i]?.elim (fault .dangling) pure

def call (cb : Callback D) (p : Ptr) : ListProg D Int :=
  vars >>= fun v =>
  update p (fun e => { e with data := cb.write v.calls e.data }) >>= fun _ =>
  setVars (fun v => { v with calls := v.calls + 1 }) >>= fun _ =>
  pure (cb.answer v.calls)

/-- `init` of the data of an entry, if there is one. -/
def initEntry (lst : ListT D) (p : Ptr) : ListProg D Int :=
  match lst.init with
  | none => pure 0
  | some init =>
      call init p >>= fun res =>
      setVars (fun v => { v with failed := v.failed || res != 0 }) >>= fun _ =>
      pure res

/-- `fini` of the data of an entry, if there is one; its answer is not looked at. -/
def finiEntry (lst : ListT D) (p : Ptr) : ListProg D Unit :=
  match lst.fini with
  | none => pure ()
  | some fini => call fini p >>= fun _ => pure ()

/-- The loop that makes entries behind `tmp`, with an `unsigned` counter. Every round
takes memory for a record, so that there is an end to them. -/
def appendEntries (refused broken : Code) (n : Nat) : Nat → ListT D → Ptr → Nat → ListProg D (Code × ListT D)
  | 0, _, _, _ => fault .outOfFuel
  | fuel + 1, lst, tmp, i =>
      if i < n then
        mallocEntry system lst.elsz >>= fun p =>
        if p = none then pure (refused, { lst with tail := p })
        else
          update p (fun e => { e with next := none, prev := tmp }) >>= fun _ =>
          update tmp (fun e => { e with next := p }) >>= fun _ =>
          initEntry lst p >>= fun res =>
          if res ≠ 0 then pure (broken, { lst with tail := p })
          else
            setIndex { lst with tail := p } i p >>= fun lst =>
            appendEntries refused broken n fuel lst p ((i + 1) % 2 ^ 32)
      else pure (.ok, lst)

def listDataInit (lst : ListT D) : ListProg D (Code × ListT D) :=
  if 0 < lst.elnum then
    reallocIndex system none lst.elnum >>= fun index =>
    if index = none then pure (.dlistInit 1, { lst with index })
    else
      mallocEntry system lst.elsz >>= fun p =>
      if p = none then pure (.dlistInit 2, { lst with index, head := p })
      else
        update p (fun e => { e with prev := none, next := none }) >>= fun _ =>
        initEntry lst p >>= fun res =>
        if res ≠ 0 then pure (.dlistInit 3, { lst with index, head := p })
        else
          setIndex { lst with index, head := p, tail := p } 0 p >>= fun lst =>
          appendEntries system (.dlistInit 3) (.dlistInit 4) lst.elnum (system.space + 1) lst lst.tail 1
  else pure (.ok, { lst with index := none, head := none, tail := none })

/-- Finalises and frees the entries from `p` on. -/
def releaseEntries (lst : ListT D) : Nat → Ptr → ListProg D Unit
  | _, none => pure ()
  | 0, some _ => fault .outOfFuel
  | fuel + 1, some a =>
      load (some a) >>= fun e =>
      finiEntry lst (some a) >>= fun _ =>
      free (some a) >>= fun _ =>
      releaseEntries lst fuel e.next

def listDataFini (lst : ListT D) : ListProg D (ListT D) :=
  bound >>= fun fuel =>
  releaseEntries lst fuel lst.head >>= fun _ =>
  pure { lst with tail := none, head := none, index := none, elnum := 0 }

def listInit (elsz elnum : Nat) (init fini : Option (Callback D)) (lst : ListT D) : ListProg D (Code × ListT D) :=
  check (0 < elsz) >>= fun _ =>
  listDataInit system { lst with elsz, elnum, init, fini } >>= fun (res, lst) =>
  pure (if res = .ok then .ok else .listInit 1, lst)

def listFini (lst : ListT D) : ListProg D (ListT D) :=
  listDataFini lst >>= fun lst =>
  pure { lst with init := none, fini := none }

/-- The three loops of `list_data_reinit`, of which each calls what is there. -/
def reinitEntries (lst : ListT D) : Nat → Ptr → ListProg D Code
  | _, none => pure .ok
  | 0, some _ => fault .outOfFuel
  | fuel + 1, some a =>
      finiEntry lst (some a) >>= fun _ =>
      initEntry lst (some a) >>= fun res =>
      if res ≠ 0 then pure (.listReinit (if lst.fini.isSome then 1 else 2))
      else load (some a) >>= fun e => reinitEntries lst fuel e.next

def listDataReinit (lst : ListT D) : ListProg D Code :=
  if lst.fini.isNone ∧ lst.init.isNone then pure .ok
  else bound >>= fun fuel => reinitEntries lst fuel lst.head

/-- Re-initialises the existing entries unless they are to be saved. -/
def reinitUnlessSaved (flags : UInt32) (lst : ListT D) : ListProg D Code :=
  if saves flags then pure .ok else listDataReinit lst

/-- The first entry of an empty list, with the index in place. -/
def growFirst (lst : ListT D) : ListProg D (Code × ListT D) :=
  mallocEntry system lst.elsz >>= fun p =>
  if p = none then pure (.listEnsureLen 3, { lst with head := p })
  else
    update p (fun e => { e with prev := none, next := none }) >>= fun _ =>
    initEntry lst p >>= fun res =>
    if res ≠ 0 then pure (.listEnsureLen 4, { lst with head := p, tail := p })
    else setIndex { lst with head := p, tail := p } 0 p >>= fun lst => pure (.ok, lst)

/-- The other entries. -/
def growRest (n adjust : Nat) (lst : ListT D) : ListProg D (Code × ListT D) :=
  check lst.tail.isSome >>= fun _ =>
  appendEntries system (.listEnsureLen (if lst.init.isSome then 5 else 7)) (.listEnsureLen 6) n (system.space + 1)
    lst lst.tail ((lst.elnum + adjust) % 2 ^ 32) >>= fun (res, lst) =>
  pure (res, if res = .ok then { lst with elnum := n } else lst)

/-- What is appended, with the index in place. -/
def growEntries (n : Nat) (lst : ListT D) : ListProg D (Code × ListT D) :=
  if lst.elnum = 0 then
    growFirst system lst >>= fun (res, lst) =>
    if res ≠ .ok then pure (res, lst) else growRest system n 1 lst
  else growRest system n 0 lst

/-- The branch of `list_ensure_len` for a larger length. -/
def growTo (n : Nat) (flags : UInt32) (lst : ListT D) : ListProg D (Code × ListT D) :=
  reinitUnlessSaved flags lst >>= fun res =>
  if res ≠ .ok then pure (.listEnsureLen 1, lst)
  else
    reallocIndex system lst.index n >>= fun index =>
    if index = none then pure (.listEnsureLen 2, lst) else growEntries system n { lst with index }

/-- The branch of `list_ensure_len` for a smaller length that is not zero. -/
def shrinkTo (n : Nat) (flags : UInt32) (lst : ListT D) : ListProg D (Code × ListT D) :=
  getIndex lst n >>= fun tmp =>
  load tmp >>= fun e =>
  update e.prev (fun e => { e with next := none }) >>= fun _ =>
  bound >>= fun fuel =>
  releaseEntries lst fuel tmp >>= fun _ =>
  reallocIndex system lst.index n >>= fun index =>
  if index = none then pure (.listEnsureLen 8, { lst with tail := e.prev })
  else
    reinitUnlessSaved flags { lst with tail := e.prev, index, elnum := n } >>= fun res =>
    pure (if res ≠ .ok then .listEnsureLen 9 else .ok, { lst with tail := e.prev, index, elnum := n })

def listEnsureLen (newelnum : Nat) (flags : UInt32) (lst : ListT D) : ListProg D (Code × ListT D) :=
  if lst.elnum < newelnum then growTo system newelnum flags lst
  else if newelnum < lst.elnum then
    if 0 < newelnum then shrinkTo system newelnum flags lst
    else listDataFini lst >>= fun lst => pure (.ok, lst)
  else
    reinitUnlessSaved flags lst >>= fun res =>
    pure (if res ≠ .ok then .listEnsureLen 10 else .ok, lst)

/-- The entry whose data `list_get` returns. -/
def listGet (lst : ListT D) (idx : Nat) : ListProg D Ptr :=
  if idx < lst.elnum then getIndex lst idx else pure none

def listIncr (lst : ListT D) : ListProg D (Ptr × ListT D) :=
  listEnsureLen system ((lst.elnum + 1) % 2 ^ 64) LIST_FLAG_SAVE lst >>= fun (res, lst) =>
  if res ≠ .ok then pure (none, lst)
  else listGet lst ((lst.elnum + 2 ^ 64 - 1) % 2 ^ 32) >>= fun p => pure (p, lst)

def listDecr (lst : ListT D) : ListProg D (Code × ListT D) :=
  listEnsureLen system ((lst.elnum + 2 ^ 64 - 1) % 2 ^ 64) LIST_FLAG_SAVE lst >>= fun (res, lst) =>
  pure (if res ≠ .ok then .listDecr 1 else .ok, lst)

def setList (l : Nat) (lst : ListT D) : ListProg D Unit :=
  setVars fun v => { v with lists := Function.update v.lists l lst }

/-- A call that works on one list. -/
def onList {A : Type} (l : Nat) (f : ListT D → ListProg D (A × ListT D)) : ListProg D A :=
  vars >>= fun v =>
  f (v.lists l) >>= fun (a, lst) =>
  setList l lst >>= fun _ =>
  pure a

/-- Both lists may be the same one. -/
def listMove (dst src : Nat) : ListProg D Code :=
  onList dst (fun lst => listFini lst >>= fun lst => pure ((), lst)) >>= fun _ =>
  vars >>= fun v =>
  setList dst (v.lists src) >>= fun _ =>
  setList src ⟨0, 0, none, none, none, none, none⟩ >>= fun _ =>
  pure .ok

inductive ListOp (D : Type) where
  | init (l elsz elnum : Nat) (init fini : Option (Callback D))
  | ensureLen (l newelnum : Nat) (flags : UInt32)
  | incr (l : Nat)
  | decr (l : Nat)
  | move (dst src : Nat)

/-- A result, or the entry whose data are returned. -/
inductive Answer where
  | code (res : Code)
  | item (p : Ptr)
  deriving DecidableEq, Repr

def step : ListOp D → ListProg D Answer
  | .init l elsz elnum init fini =>
      onList l (listInit system elsz elnum init fini) >>= fun res =>
      setVars (fun v => { v with live := Function.update v.live l (decide (res = .ok)) }) >>= fun _ =>
      pure (.code res)
  | .ensureLen l n flags => .code <$> onList l (listEnsureLen system n flags)
  | .incr l => .item <$> onList l (listIncr system)
  | .decr l => .code <$> onList l (listDecr system)
  | .move dst src => .code <$> listMove dst src

end MnCommon.IndexedList
