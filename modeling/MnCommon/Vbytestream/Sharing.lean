import Mathlib.Tactic.Abel
import MnCommon.Memory.References
import MnCommon.Memory.Run
import MnCommon.Vbytestream.Model

/-! The segments that vectored streams and their client share, down to the counts of the references to
them. What the segments hold is left to the streams by themselves. -/

namespace MnCommon.Vbytestream.Sharing

open Memory
open Bytestream (toSize)

/-- `mnbytes_t` without its bytes. -/
structure Header where
  nref : Int
  sz : Nat

/-- An element of `iov`, by the record that its memory belongs to. -/
structure Segment where
  iovBase : Ptr
  iovLen : Nat

/-- A stream without the position of what has been written out. -/
structure Stream where
  iov : List Segment
  eod : Cursor
  growsz : Nat

def headers : Counter Header where
  get n := n.nref
  up n := { n with nref := n.nref + 1 }
  down n := { n with nref := n.nref - 1 }
  get_up _ := rfl
  get_down _ := rfl

variable {R : Type} (system : Allocator Header)

def bytesIncref (p : Ptr) : Prog Header R Unit := incref headers p

def bytesDecref (p : Ptr) : Prog Header R Unit := decref headers p

def bytesNew (sz : Nat) : Prog Header R Ptr := do
  check (decide (0 < sz))
  if 24 + (sz + (8 - sz % 8)) < 2 ^ 63 then do
    let p ← alloc system
    update p fun _ => { nref := 0, sz := sz }
    return p
  else
    fault .abort

def iovecInit : Segment := { iovBase := none, iovLen := 0 }

def iovecAlloc (iov : Segment) (sz : Nat) : Prog Header R Segment := do
  check (iov.iovBase == none && iov.iovLen == 0)
  let s ← bytesNew system sz
  bytesIncref s
  return { iovBase := s, iovLen := sz }

def iovecFini (iov : Segment) : Prog Header R Segment := do
  if iov.iovBase ≠ none then
    bytesDecref iov.iovBase
    return iovecInit
  else
    return iov

/-- The finaliser on elements of the array. -/
def finiSegments : List Segment → Prog Header R Unit
  | [] => pure ()
  | slot :: rest => do
      let _ ← iovecFini slot
      finiSegments rest

/-- An index below zero is a large `unsigned`. -/
def arrayGet (iov : List Segment) (idx : Int) : Option Segment :=
  if 0 ≤ idx then iov[idx.toNat]? else none

/-- `array_ensure_len` with `ARRAY_FLAG_SAVE`, to more or to fewer elements. -/
def arrayEnsureLen (iov : List Segment) (len : Int) : Prog Header R (List Segment) :=
  if 0 ≤ len then do
    finiSegments (iov.drop len.toNat)
    return iov.take len.toNat ++ List.replicate (len.toNat - iov.length) iovecInit
  else
    fault .abort

def iovecGetSafe (idx : Int) (iov : List Segment) : Prog Header R (Segment × List Segment) :=
  match arrayGet iov idx with
  | some edge => pure (edge, iov)
  | none => do
      let iov ← arrayEnsureLen iov (idx + 1)
      match arrayGet iov idx with
      | some edge => return (edge, iov)
      | none => fault .assertion

def Stream.put (t : Stream) (idx : Int) (edge : Segment) : Stream := { t with iov := t.iov.set idx.toNat edge }

/-- The last lines of `vbytestream_nprintf`. -/
def Stream.advance (t : Stream) (nused : Int) : Stream :=
  { t with eod := { t.eod with offt := t.eod.offt + nused, total := t.eod.total + nused } }

/-- The length of the text, which is put where there is room; no text is an error. -/
def vsnprintf (edge : Segment) (sz : Nat) (text : Option Nat) : Prog Header R Int :=
  match text with
  | none => pure (-1)
  | some len => do
      if 0 < sz then
        let _ ← load edge.iovBase
        return len
      else
        return len

/-- The edge that `vbytestream_nprintf` starts with. -/
def openEdge (sz : Int) (t : Stream) : Prog Header R (Segment × Stream) := do
  let (edge, iov) ← iovecGetSafe t.eod.idx t.iov
  if edge.iovBase = none then
    check (t.eod.offt == 0)
    let edge ← iovecAlloc system edge (toSize sz)
    return (edge, { t with iov := iov })
  else
    check (decide (0 < t.eod.offt))
    return (edge, { t with iov := iov })

/-- The edge after that, for what the first one has no room for. -/
def freshEdge (sz : Int) (t : Stream) : Prog Header R (Segment × Stream) := do
  let idx := t.eod.idx + 1
  let (edge, iov) ← iovecGetSafe idx t.iov
  check (edge.iovBase == none)
  let edge ← iovecAlloc system edge (toSize sz)
  return (edge, { t with iov := iov, eod := { t.eod with idx := idx, offt := 0 } })

/-- The second try of `vbytestream_nprintf`. -/
def nextEdge (sz : Int) (text : Option Nat) (t : Stream) : Prog Header R (Int × Stream) := do
  let (edge, t) ← freshEdge system sz t
  let nused ← vsnprintf edge (toSize sz) text
  if sz ≤ nused then
    let edge ← iovecFini edge
    return (NPRINTF_NEEDMORE, t.put t.eod.idx edge)
  else
    return (nused, (t.put t.eod.idx edge).advance nused)

def vbytestreamNprintf (sz : Int) (text : Option Nat) (t : Stream) : Prog Header R (Int × Stream) := do
  let (edge, t) ← openEdge system sz t
  let avail := toInt (edge.iovLen - t.eod.offt)
  let nused ← vsnprintf edge (toSize avail) text
  if avail ≤ nused then
    if t.eod.offt = 0 then
      check (avail == sz)
      let edge ← iovecFini edge
      return (NPRINTF_NEEDMORE, t.put t.eod.idx edge)
    else
      nextEdge system sz text (t.put t.eod.idx { edge with iovLen := toSize t.eod.offt })
  else
    return (nused, (t.put t.eod.idx edge).advance nused)

/-- Where `sz` bytes may be put. -/
def vbytestreamBuf (sz : Nat) (t : Stream) : Prog Header R (Ptr × Stream) := do
  let (edge, iov) ← iovecGetSafe t.eod.idx t.iov
  let t := { t with iov := iov }
  if edge.iovBase = none then
    let edge ← iovecAlloc system edge sz
    return (edge.iovBase, t.put t.eod.idx edge)
  else
    check (decide (0 < edge.iovLen))
    if (sz : Int) ≤ edge.iovLen - t.eod.offt then
      return (edge.iovBase, t)
    else
      let (edge, t) ← freshEdge system sz (t.put t.eod.idx { edge with iovLen := toSize t.eod.offt })
      return (edge.iovBase, t.put t.eod.idx edge)

/-- Whether the edge has data. -/
def Stream.part (t : Stream) : Int := if 0 < t.eod.offt then 1 else 0

def vbytestreamAdopt (data : Ptr) (t : Stream) : Prog Header R (Int × Stream) := do
  let last := t.eod.idx + t.part
  let iov ← arrayEnsureLen t.iov (last + 1)
  match arrayGet iov last with
  | none => fault .abort
  | some edge => do
      check (edge.iovBase == none && edge.iovLen == 0)
      let sz := (← load data).sz
      bytesIncref data
      return (toInt sz, { t with
        iov := iov.set last.toNat { iovBase := data, iovLen := sz }
        eod := { idx := t.eod.idx + 1, offt := 0, total := t.eod.total + sz } })

/-- The full size of the memory counts again. -/
def rewindSegments : List Segment → Prog Header R (List Segment)
  | [] => pure []
  | slot :: rest => do
      if slot.iovBase ≠ none then
        let s ← load slot.iovBase
        let rest ← rewindSegments rest
        return { slot with iovLen := s.sz } :: rest
      else
        let rest ← rewindSegments rest
        return { slot with iovLen := 0 } :: rest

def vbytestreamRewind (t : Stream) : Prog Header R (Unit × Stream) := do
  let iov ← rewindSegments t.iov
  return ((), { t with iov := iov, eod := ⟨0, 0, 0⟩ })

/-- `readv` puts something into memory that is there; `got` is what it answers. -/
def readSegments : List Segment → Prog Header R Unit
  | [] => pure ()
  | slot :: rest => do
      if slot.iovBase ≠ none then
        let _ ← load slot.iovBase
        readSegments rest
      else
        readSegments rest

/-- A division that traps ends the program. -/
def orTrap {A : Type} : Except Fault A → Prog Header R A
  | .ok a => pure a
  | .error _ => fault .abort

/-- The end of the data after `nread` bytes have come in. -/
def arrive (nread : Int) (t : Stream) : Prog Header R (Int × Stream) := do
  let (quot, rem) ← orTrap (div nread t.growsz)
  let t := { t with eod := { idx := t.eod.idx + quot, offt := rem, total := t.eod.total + nread } }
  if 0 < rem then
    match arrayGet t.iov t.eod.idx with
    | some edge => return (nread, t.put t.eod.idx { edge with iovLen := toSize rem })
    | none => fault .assertion
  else
    return (nread, t)

/-- The loop that is to give memory to new elements starts behind the last of them. -/
def vbytestreamRead (iovMax : Nat) (sz got : Int) (t : Stream) : Prog Header R (Int × Stream) := do
  check (decide (0 ≤ sz))
  let needed ← orTrap (slotsNeeded sz t.growsz)
  if needed = 0 ∨ iovMax ≤ needed then
    return (-1, t)
  else
    check (decide (t.eod.idx ≤ t.iov.length))
    if 0 < needed then
      let ffree := t.eod.idx + t.part
      let iov ← arrayEnsureLen t.iov (ffree + needed)
      readSegments ((iov.drop ffree.toNat).take needed.toNat)
      if 0 < got then arrive got { t with iov := iov } else return (got, { t with iov := iov })
    else
      return (0, t)

def vbytestreamInit (growsz : Nat) : Prog Header R Stream := do
  check (decide (0 < growsz))
  return { iov := [], eod := ⟨0, 0, 0⟩, growsz := growsz }

def vbytestreamFini (t : Stream) : Prog Header R (Unit × Stream) := do
  finiSegments t.iov
  return ((), { t with iov := [] })

/-! What each of them does to the references. -/

def slotRefs (slot : Segment) : Multiset Addr := slot.iovBase.elim 0 fun a => {a}

/-- The references of some elements. -/
def bases (iov : List Segment) : Multiset Addr := (iov.map slotRefs).sum

section References

variable {s next : Store Header R} {fresh : Finset Addr} {refs rest : Multiset Addr} {slot edge : Segment}
  {iov : List Segment} {t : Stream} {v : R} {a : Addr} {idx : Int}

@[simp] theorem bases_nil : bases [] = 0 := rfl

@[simp] theorem bases_cons (slot : Segment) (iov : List Segment) : bases (slot :: iov) = slotRefs slot + bases iov :=
  List.sum_cons

@[simp] theorem bases_append (iov later : List Segment) : bases (iov ++ later) = bases iov + bases later := by
  rw [bases, List.map_append, List.sum_append, bases, bases]

@[simp] theorem slotRefs_init : slotRefs iovecInit = 0 := rfl

@[simp] theorem bases_replicate (n : Nat) : bases (List.replicate n iovecInit) = 0 := by
  rw [bases, List.map_replicate, slotRefs_init, List.sum_replicate, nsmul_zero]

theorem slotRefs_none (empty : slot.iovBase = none) : slotRefs slot = 0 := by rw [slotRefs, empty]; rfl

theorem slotRefs_some (base : slot.iovBase = some a) : slotRefs slot = {a} := by rw [slotRefs, base]; rfl

/-- One element and the others. -/
theorem bases_split {i : Nat} (here : iov[i]? = some slot) : bases iov = slotRefs slot + bases (iov.eraseIdx i) := by
  rcases List.getElem?_eq_some_iff.mp here with ⟨inside, rfl⟩
  have split : iov = iov.take i ++ iov[i] :: iov.drop (i + 1) := by
    rw [List.getElem_cons_drop, List.take_append_drop]
  calc bases iov = bases (iov.take i) + (slotRefs iov[i] + bases (iov.drop (i + 1))) := by
        rw [← bases_cons, ← bases_append, ← split]
    _ = slotRefs iov[i] + bases (iov.eraseIdx i) := by
        rw [List.eraseIdx_eq_take_drop_succ, bases_append]
        abel

theorem bases_put {i : Nat} (here : iov[i]? = some slot) (edge : Segment) :
    bases (iov.set i edge) = slotRefs edge + bases (iov.eraseIdx i) := by
  have inside := (List.getElem?_eq_some_iff.mp here).1
  rw [bases_split (List.getElem?_set_self inside), List.eraseIdx_set_eq]

/-- The references are as many as counted, and the variables are as they were. -/
structure Accounted (refs : Multiset Addr) (fresh : Finset Addr) (v : R) (s : Store Header R) : Prop where
  counted : Counted headers refs fresh s.heap
  vars : s.vars = v

theorem bytesNew_sure (accounted : Accounted refs fresh v s) (sz : Nat) :
    Sure (fun p next => ∃ a, p = some a ∧ a ∉ fresh ∧ a ∉ refs ∧ Accounted refs (insert a fresh) v next)
      (bytesNew system sz s) := by
  refine Sure.check fun _ => ?_
  split_ifs
  · rcases accounted.counted.create system (n := { nref := 0, sz := sz }) rfl with ⟨a, next, run, counted, vars, new⟩
    rw [accounted.counted.alive, not_or] at new
    exact .of_ok run ⟨a, rfl, new.2, new.1, counted, vars.trans accounted.vars⟩
  · exact .abort

theorem iovecAlloc_sure (accounted : Accounted refs fresh v s) (slot : Segment) (sz : Nat) :
    Sure (fun slot next => slot.iovBase ≠ none ∧ Accounted (slotRefs slot + refs) fresh v next)
      (iovecAlloc system slot sz s) := by
  refine Sure.check fun _ => (bytesNew_sure system accounted sz).bind fun p next post => ?_
  rcases post with ⟨a, rfl, new, -, later⟩
  rcases later.counted.incref (.inr (Finset.mem_insert_self a fresh)) with ⟨last, run, counted, vars⟩
  rw [Finset.erase_insert new] at counted
  exact (Sure.of_ok (P := fun _ next => Accounted (a ::ₘ refs) fresh v next) run
    ⟨counted, vars.trans later.vars⟩).bind fun _ last done => .pure ⟨Option.some_ne_none a, done⟩

theorem iovecFini_sure (accounted : Accounted (slotRefs slot + refs) fresh v s) :
    Sure (fun slot next => slotRefs slot = 0 ∧ Accounted refs fresh v next) (iovecFini slot s) := by
  rw [iovecFini]
  cases base : slot.iovBase with
  | none =>
      rw [slotRefs_none base, zero_add] at accounted
      rw [if_neg (not_not.mpr rfl)]
      exact .pure ⟨slotRefs_none base, accounted⟩
  | some a =>
      rw [slotRefs_some base, Multiset.singleton_add] at accounted
      rw [if_pos (Option.some_ne_none a)]
      rcases accounted.counted.decref with ⟨next, run, counted, vars⟩
      exact (Sure.of_ok (P := fun _ next => Accounted refs fresh v next) run
        ⟨counted, vars.trans accounted.vars⟩).bind fun _ last done => .pure ⟨rfl, done⟩

theorem finiSegments_sure (accounted : Accounted (bases iov + refs) fresh v s) :
    Sure (fun _ next => Accounted refs fresh v next) (finiSegments iov s) := by
  induction iov generalizing s with
  | nil =>
      rw [bases_nil, zero_add] at accounted
      exact .pure accounted
  | cons slot rest ih =>
      rw [bases_cons, add_assoc] at accounted
      exact (iovecFini_sure accounted).bind fun _ next done => ih done.2

theorem arrayEnsureLen_sure (accounted : Accounted (bases iov + refs) fresh v s) (len : Int) :
    Sure (fun iov next => Accounted (bases iov + refs) fresh v next) (arrayEnsureLen iov len s) := by
  rw [arrayEnsureLen]
  split_ifs
  · have split : bases iov = bases (iov.drop len.toNat) + bases (iov.take len.toNat) := by
      rw [add_comm, ← bases_append, List.take_append_drop]
    rw [split, add_assoc] at accounted
    refine (finiSegments_sure accounted).bind fun _ next done => .pure ?_
    rwa [bases_append, bases_replicate, add_zero]
  · exact .abort

theorem arrayGet_some (found : arrayGet iov idx = some edge) : iov[idx.toNat]? = some edge := by
  rw [arrayGet] at found
  split_ifs at found
  exact found

theorem iovecGetSafe_sure (accounted : Accounted (bases iov + refs) fresh v s) (idx : Int) :
    Sure (fun found next => found.2[idx.toNat]? = some found.1 ∧ Accounted (bases found.2 + refs) fresh v next)
      (iovecGetSafe idx iov s) := by
  rw [iovecGetSafe]
  cases found : arrayGet iov idx with
  | some edge => exact .pure ⟨arrayGet_some found, accounted⟩
  | none =>
      refine (arrayEnsureLen_sure accounted (idx + 1)).bind fun iov next done => ?_
      cases there : arrayGet iov idx with
      | some edge => exact .pure ⟨arrayGet_some there, done⟩
      | none => exact .assertion

/-- A text is only put into memory that is there. -/
theorem vsnprintf_sure (accounted : Accounted (slotRefs edge + refs) fresh v s) (used : edge.iovBase ≠ none) (sz : Nat)
    (text : Option Nat) :
    Sure (fun _ next => Accounted (slotRefs edge + refs) fresh v next) (vsnprintf edge sz text s) := by
  cases text with
  | none => exact .pure accounted
  | some len =>
      rcases Option.ne_none_iff_exists'.mp used with ⟨a, base⟩
      rw [vsnprintf, base]
      have member : a ∈ slotRefs edge + refs := by
        rw [slotRefs_some base]
        exact Multiset.mem_cons_self a refs
      rcases accounted.counted.cell (.inl member) with ⟨n, cell⟩
      by_cases room : 0 < sz
      · rw [if_pos room]
        exact .load cell (.pure accounted)
      · rw [if_neg room]
        exact .pure accounted

/-- An edge at its place, with memory that may not be entered there yet. -/
structure Opened (rest : Multiset Addr) (fresh : Finset Addr) (v : R) (edge : Segment) (t : Stream)
    (s : Store Header R) : Prop where
  used : edge.iovBase ≠ none
  here : ∃ slot, t.iov[t.eod.idx.toNat]? = some slot
  accounted : Accounted (slotRefs edge + (bases (t.iov.eraseIdx t.eod.idx.toNat) + rest)) fresh v s

theorem openEdge_sure (accounted : Accounted (bases t.iov + rest) fresh v s) (sz : Int) :
    Sure (fun found next => Opened rest fresh v found.1 found.2 next) (openEdge system sz t s) := by
  refine (iovecGetSafe_sure accounted t.eod.idx).bind fun found next post => ?_
  rcases found with ⟨edge, iov⟩
  rcases post with ⟨here, later⟩
  rw [bases_split here, add_assoc] at later
  dsimp only at later ⊢
  split_ifs with empty
  · rw [slotRefs_none empty, zero_add] at later
    refine Sure.check fun _ => (iovecAlloc_sure system later edge (toSize sz)).bind fun edge' last done => ?_
    exact .pure ⟨done.1, ⟨edge, here⟩, done.2⟩
  · exact Sure.check fun _ => .pure ⟨empty, ⟨edge, here⟩, later⟩

theorem freshEdge_sure (accounted : Accounted (bases t.iov + rest) fresh v s) (sz : Int) :
    Sure (fun found next => Opened rest fresh v found.1 found.2 next) (freshEdge system sz t s) := by
  refine (iovecGetSafe_sure accounted (t.eod.idx + 1)).bind fun found next post => ?_
  rcases found with ⟨edge, iov⟩
  rcases post with ⟨here, later⟩
  rw [bases_split here, add_assoc] at later
  refine Sure.check fun empty => ?_
  rw [slotRefs_none (beq_iff_eq.mp empty), zero_add] at later
  refine (iovecAlloc_sure system later edge (toSize sz)).bind fun edge' last done => ?_
  exact .pure ⟨done.1, ⟨edge, here⟩, done.2⟩

theorem Opened.put (opened : Opened rest fresh v edge t s) {slot : Segment}
    (accounted : Accounted (slotRefs slot + (bases (t.iov.eraseIdx t.eod.idx.toNat) + rest)) fresh v next) :
    Accounted (bases (t.put t.eod.idx slot).iov + rest) fresh v next := by
  rcases opened.here with ⟨old, here⟩
  rwa [Stream.put, bases_put here, add_assoc]

theorem Opened.discard (opened : Opened rest fresh v edge t s) {slot : Segment} (unused : slotRefs slot = 0)
    (accounted : Accounted (bases (t.iov.eraseIdx t.eod.idx.toNat) + rest) fresh v next) :
    Accounted (bases (t.put t.eod.idx slot).iov + rest) fresh v next := by
  refine opened.put ?_
  rwa [unused, zero_add]

theorem nextEdge_sure (accounted : Accounted (bases t.iov + rest) fresh v s) (sz : Int) (text : Option Nat) :
    Sure (fun answer next => Accounted (bases answer.2.iov + rest) fresh v next) (nextEdge system sz text t s) := by
  refine (freshEdge_sure system accounted sz).bind fun found next opened => ?_
  rcases found with ⟨edge, t'⟩
  refine (vsnprintf_sure opened.accounted opened.used _ text).bind fun nused last done => ?_
  split_ifs
  · exact (iovecFini_sure done).bind fun slot final post => .pure (opened.discard post.1 post.2)
  · exact .pure (opened.put done)

theorem nprintf_sure (accounted : Accounted (bases t.iov + rest) fresh v s) (sz : Int) (text : Option Nat) :
    Sure (fun answer next => Accounted (bases answer.2.iov + rest) fresh v next)
      (vbytestreamNprintf system sz text t s) := by
  refine (openEdge_sure system accounted sz).bind fun found next opened => ?_
  rcases found with ⟨edge, t'⟩
  refine (vsnprintf_sure opened.accounted opened.used _ text).bind fun nused last done => ?_
  split_ifs
  · exact Sure.check fun _ =>
      (iovecFini_sure done).bind fun slot final post => .pure (opened.discard post.1 post.2)
  · let closed : Segment := { edge with iovLen := toSize t'.eod.offt }
    have entered : Accounted (bases (t'.put t'.eod.idx closed).iov + rest) fresh v last := opened.put done
    exact nextEdge_sure system entered sz text
  · exact .pure (opened.put done)

theorem buf_sure (accounted : Accounted (bases t.iov + rest) fresh v s) (sz : Nat) :
    Sure (fun answer next => Accounted (bases answer.2.iov + rest) fresh v next) (vbytestreamBuf system sz t s) := by
  refine (iovecGetSafe_sure accounted t.eod.idx).bind fun found next post => ?_
  rcases found with ⟨edge, iov⟩
  rcases post with ⟨here, later⟩
  have entered (slot : Segment) : bases (iov.set t.eod.idx.toNat slot) + rest =
      slotRefs slot + (bases (iov.eraseIdx t.eod.idx.toNat) + rest) := by rw [bases_put here, add_assoc]
  dsimp only at here later ⊢
  split_ifs with empty
  · rw [bases_split here, slotRefs_none empty, zero_add] at later
    refine (iovecAlloc_sure system later edge sz).bind fun edge' last done => ?_
    rw [← entered edge'] at done
    exact .pure done.2
  · exact Sure.check fun _ => .pure later
  · have closed : Accounted (bases (iov.set t.eod.idx.toNat { edge with iovLen := toSize t.eod.offt }) + rest) fresh v
        next := by
      rw [entered, ← add_assoc]
      rwa [bases_split here] at later
    refine Sure.check fun _ =>
      (freshEdge_sure system (t := { t with iov := _ }) closed sz).bind fun found last opened => ?_
    exact .pure (opened.put opened.accounted)

theorem adopt_sure (accounted : Accounted (bases t.iov + rest) fresh v s) (known : a ∈ rest ∨ a ∈ fresh) :
    Sure (fun answer next => Accounted (bases answer.2.iov + rest) (fresh.erase a) v next)
      (vbytestreamAdopt (some a) t s) := by
  refine (arrayEnsureLen_sure accounted _).bind fun iov next later => ?_
  cases found : arrayGet iov (t.eod.idx + t.part) with
  | none => exact .abort
  | some edge =>
      have here := arrayGet_some found
      refine Sure.check fun empty => ?_
      have unused : slotRefs edge = 0 := slotRefs_none (beq_iff_eq.mp ((Bool.and_eq_true _ _).mp empty).1)
      rw [bases_split here, unused, zero_add] at later
      have member : a ∈ bases (iov.eraseIdx (t.eod.idx + t.part).toNat) + rest ∨ a ∈ fresh :=
        known.imp_left fun held => Multiset.mem_add.mpr (.inr held)
      rcases later.counted.cell member with ⟨n, cell⟩
      refine Sure.load cell ?_
      rcases later.counted.incref member with ⟨last, run, counted, vars⟩
      refine (Sure.of_ok (P := fun _ last => Accounted (a ::ₘ (bases _ + rest)) (fresh.erase a) v last) run
        ⟨counted, vars.trans later.vars⟩).bind fun _ last done => .pure ?_
      rw [bases_put here, add_assoc, slotRefs_some rfl, Multiset.singleton_add]
      exact done

theorem cell_of_slot (accounted : Accounted refs fresh v s) (held : ∀ a, slot.iovBase = some a → a ∈ refs)
    (used : slot.iovBase ≠ none) : ∃ a n, slot.iovBase = some a ∧ s.heap.lookup a = some n := by
  rcases Option.ne_none_iff_exists'.mp used with ⟨a, base⟩
  rcases accounted.counted.cell (.inl (held a base)) with ⟨n, cell⟩
  exact ⟨a, n, base, cell⟩

theorem mem_bases (inside : slot ∈ iov) (base : slot.iovBase = some a) : a ∈ bases iov := by
  rcases List.mem_iff_getElem?.mp inside with ⟨i, here⟩
  rw [bases_split here, slotRefs_some base]
  exact Multiset.mem_add.mpr (.inl (Multiset.mem_singleton_self a))

theorem rewindSegments_sure (accounted : Accounted refs fresh v s)
    (held : ∀ slot ∈ iov, ∀ a, slot.iovBase = some a → a ∈ refs) :
    Sure (fun iov' next => bases iov' = bases iov ∧ next = s) (rewindSegments iov s) := by
  induction iov with
  | nil => exact .pure ⟨rfl, rfl⟩
  | cons slot rest ih =>
      have later := ih fun other inside => held other (List.mem_cons_of_mem slot inside)
      have same (len : Nat) : slotRefs { slot with iovLen := len } = slotRefs slot := rfl
      rw [rewindSegments]
      split_ifs with used
      · rcases cell_of_slot accounted (held slot List.mem_cons_self) used with ⟨a, n, base, cell⟩
        rw [base]
        refine Sure.load cell (later.bind fun iov' next done => .pure ⟨?_, done.2⟩)
        rw [bases_cons, bases_cons, slotRefs_some base, slotRefs_some rfl, done.1]
      · refine later.bind fun iov' next done => .pure ⟨?_, done.2⟩
        rw [bases_cons, bases_cons, same, done.1]

theorem rewind_sure (accounted : Accounted (bases t.iov + rest) fresh v s) :
    Sure (fun answer next => Accounted (bases answer.2.iov + rest) fresh v next) (vbytestreamRewind t s) := by
  refine (rewindSegments_sure accounted fun slot inside a base =>
    Multiset.mem_add.mpr (.inl (mem_bases inside base))).bind fun iov next done => .pure ?_
  rcases done with ⟨same, rfl⟩
  rwa [← same] at accounted

theorem readSegments_sure (accounted : Accounted refs fresh v s)
    (held : ∀ slot ∈ iov, ∀ a, slot.iovBase = some a → a ∈ refs) :
    Sure (fun _ next => next = s) (readSegments iov s) := by
  induction iov with
  | nil => exact .pure rfl
  | cons slot rest ih =>
      have later := ih fun other inside => held other (List.mem_cons_of_mem slot inside)
      rw [readSegments]
      split_ifs with used
      · rcases cell_of_slot accounted (held slot List.mem_cons_self) used with ⟨a, n, base, cell⟩
        rw [base]
        exact Sure.load cell later
      · exact later

theorem bases_shorten (here : iov[idx.toNat]? = some edge) (len : Nat) :
    bases (iov.set idx.toNat { edge with iovLen := len }) = bases iov := by
  rw [bases_put here, bases_split here]
  rfl

theorem orTrap_sure {A B : Type} {x : Except Fault A} {f : A → Prog Header R B} {Q : B → Store Header R → Prop}
    (later : ∀ a, Sure Q (f a s)) : Sure Q ((orTrap x >>= f) s) := by
  cases x with
  | error kind => exact .abort
  | ok a => exact later a

theorem arrive_sure (accounted : Accounted (bases t.iov + rest) fresh v s) (nread : Int) :
    Sure (fun answer next => Accounted (bases answer.2.iov + rest) fresh v next) (arrive nread t s) := by
  rw [arrive]
  generalize div nread t.growsz = quotient
  refine orTrap_sure fun result => ?_
  rcases result with ⟨quot, rem⟩
  dsimp only
  split_ifs
  · cases found : arrayGet t.iov (t.eod.idx + quot) with
    | none => exact .assertion
    | some edge =>
        rw [← bases_shorten (arrayGet_some found) (toSize rem)] at accounted
        exact .pure accounted
  · exact .pure accounted

theorem read_sure (accounted : Accounted (bases t.iov + rest) fresh v s) (iovMax : Nat) (sz got : Int) :
    Sure (fun answer next => Accounted (bases answer.2.iov + rest) fresh v next)
      (vbytestreamRead iovMax sz got t s) := by
  rw [vbytestreamRead]
  generalize slotsNeeded sz t.growsz = slots
  refine Sure.check fun _ => orTrap_sure fun needed => ?_
  by_cases refused : needed = 0 ∨ iovMax ≤ needed
  · rw [if_pos refused]
    exact .pure accounted
  rw [if_neg refused]
  refine Sure.check fun _ => ?_
  by_cases more : 0 < needed
  · rw [if_pos more]
    refine (arrayEnsureLen_sure accounted _).bind fun iov next later => ?_
    have held (slot : Segment) (inside : slot ∈ (iov.drop (t.eod.idx + t.part).toNat).take needed.toNat) (a : Addr)
        (base : slot.iovBase = some a) : a ∈ bases iov + rest :=
      Multiset.mem_add.mpr (.inl (mem_bases (List.mem_of_mem_drop (List.mem_of_mem_take inside)) base))
    refine (readSegments_sure later held).bind fun _ last same => ?_
    rw [same]
    split_ifs
    · exact arrive_sure (t := { t with iov := iov }) later got
    · exact .pure later
  · rw [if_neg more]
    exact .pure accounted

theorem fini_sure (accounted : Accounted (bases t.iov + rest) fresh v s) :
    Sure (fun _ next => Accounted rest fresh v next) (vbytestreamFini t s) :=
  (finiSegments_sure accounted).bind fun _ _ done => .pure done

end References

/-! Some streams and their client, which takes and gives back references of its own. -/

/-- `opened` are the streams that are set up, `held` the references of the client and `fresh` the records
that it has from `bytes_new` and that nothing has referred to. -/
structure Session (n : Nat) where
  store : Store Header (Fin n → Stream)
  opened : Finset (Fin n)
  held : Multiset Addr
  fresh : Finset Addr

inductive SessionOp (n : Nat)
  | create (sz : Nat)
  | incref (a : Addr)
  | decref (a : Addr)
  | init (i : Fin n) (growsz : Nat)
  | adopt (i : Fin n) (a : Addr)
  | nprintf (i : Fin n) (sz : Int) (text : Option Nat)
  | buf (i : Fin n) (sz : Nat)
  | read (i : Fin n) (sz got : Int)
  | rewind (i : Fin n)
  | fini (i : Fin n)

variable {n : Nat} (iovMax : Nat)

def Session.owns (σ : Session n) (a : Addr) : Prop := a ∈ σ.held ∨ a ∈ σ.fresh

/-- The client gives back only what it holds, hands out only what it owns, and uses a stream only between
`init` and `fini`. -/
def Permitted : SessionOp n → Session n → Prop
  | .create _, _ => True
  | .incref a, σ => σ.owns a
  | .decref a, σ => a ∈ σ.held
  | .init i _, σ => i ∉ σ.opened
  | .adopt i a, σ => i ∈ σ.opened ∧ σ.owns a
  | .nprintf i _ _, σ => i ∈ σ.opened
  | .buf i _, σ => i ∈ σ.opened
  | .read i _ _, σ => i ∈ σ.opened
  | .rewind i, σ => i ∈ σ.opened
  | .fini i, σ => i ∈ σ.opened

instance Permitted.decidable : ∀ (op : SessionOp n) (σ : Session n), Decidable (Permitted op σ)
  | .create _, _ => isTrue trivial
  | .incref a, σ => inferInstanceAs (Decidable (a ∈ σ.held ∨ a ∈ σ.fresh))
  | .decref a, σ => inferInstanceAs (Decidable (a ∈ σ.held))
  | .init i _, σ => inferInstanceAs (Decidable (i ∉ σ.opened))
  | .adopt i a, σ => inferInstanceAs (Decidable (i ∈ σ.opened ∧ (a ∈ σ.held ∨ a ∈ σ.fresh)))
  | .nprintf i _ _, σ => inferInstanceAs (Decidable (i ∈ σ.opened))
  | .buf i _, σ => inferInstanceAs (Decidable (i ∈ σ.opened))
  | .read i _ _, σ => inferInstanceAs (Decidable (i ∈ σ.opened))
  | .rewind i, σ => inferInstanceAs (Decidable (i ∈ σ.opened))
  | .fini i, σ => inferInstanceAs (Decidable (i ∈ σ.opened))

def onStream {A : Type} (i : Fin n) (x : Stream → Prog Header (Fin n → Stream) (A × Stream)) :
    Prog Header (Fin n → Stream) Unit := do
  let streams ← vars
  let (_, t) ← x (streams i)
  setVars fun streams => Function.update streams i t

def Session.stepWith {A : Type} (σ : Session n) (x : Prog Header (Fin n → Stream) A) (after : A → Session n) :
    Except Fault (Unit × Session n) :=
  match x σ.store with
  | .ok (answer, store) => .ok ((), { after answer with store := store })
  | .error kind => .error kind

def step : SessionOp n → Session n → Except Fault (Unit × Session n)
  | .create sz, σ => σ.stepWith (bytesNew system sz) fun p => { σ with fresh := p.elim σ.fresh (insert · σ.fresh) }
  | .incref a, σ => σ.stepWith (bytesIncref (some a)) fun _ => { σ with held := a ::ₘ σ.held, fresh := σ.fresh.erase a }
  | .decref a, σ => σ.stepWith (bytesDecref (some a)) fun _ => { σ with held := σ.held.erase a }
  | .init i growsz, σ =>
      let x : Prog Header (Fin n → Stream) (Unit × Stream) := do
        let t ← vbytestreamInit growsz
        return ((), t)
      σ.stepWith (onStream i fun _ => x) fun _ => { σ with opened := insert i σ.opened }
  | .adopt i a, σ =>
      σ.stepWith (onStream i (vbytestreamAdopt (some a))) fun _ => { σ with fresh := σ.fresh.erase a }
  | .nprintf i sz text, σ => σ.stepWith (onStream i (vbytestreamNprintf system sz text)) fun _ => σ
  | .buf i sz, σ => σ.stepWith (onStream i (vbytestreamBuf system sz)) fun _ => σ
  | .read i sz got, σ => σ.stepWith (onStream i (vbytestreamRead iovMax sz got)) fun _ => σ
  | .rewind i, σ => σ.stepWith (onStream i vbytestreamRewind) fun _ => σ
  | .fini i, σ => σ.stepWith (onStream i vbytestreamFini) fun _ => { σ with opened := σ.opened.erase i }

/-- All the references there are. -/
def Session.refs (σ : Session n) : Multiset Addr := (∑ i ∈ σ.opened, bases (σ.store.vars i).iov) + σ.held

/-- Every count is right, and nothing is there that nobody refers to but what the client has just created. -/
def Session.Balanced (σ : Session n) : Prop := Counted headers σ.refs σ.fresh σ.store.heap

section Sessions

variable {system iovMax} {σ τ : Session n} {i : Fin n} {a : Addr} {A : Type} {s : Store Header (Fin n → Stream)}
  {fresh : Finset Addr} {x : Stream → Prog Header (Fin n → Stream) (A × Stream)}

theorem stepWith_sure {B : Type} {y : Prog Header (Fin n → Stream) B} {P : B → Store Header (Fin n → Stream) → Prop}
    {after : B → Session n} (first : Sure P (y σ.store))
    (later : ∀ answer store, P answer store → Session.Balanced { after answer with store := store }) :
    Sure (fun _ next => next.Balanced) (σ.stepWith y after) := by
  rw [Session.stepWith]
  cases run : y σ.store with
  | error kind =>
      rw [run] at first
      cases first with
      | assertion => exact .assertion
      | abort => exact .abort
  | ok result =>
      rw [run] at first
      exact .ends (later result.1 result.2 first.of_ends)

theorem onStream_sure {f : Stream → Multiset Addr} {g : Finset Addr}
    (runs : Sure (fun answer next => Accounted (f answer.2) g s.vars next) (x (s.vars i) s)) :
    Sure (fun _ next => ∃ t, Counted headers (f t) g next.heap ∧ next.vars = Function.update s.vars i t)
      (onStream i x s) := by
  refine Sure.bind (P := fun streams next => streams = s.vars ∧ next = s) (.of_ok rfl ⟨rfl, rfl⟩) ?_
  rintro streams next ⟨rfl, rfl⟩
  refine runs.bind fun answer last done => ?_
  have set : setVars (fun streams => Function.update streams i answer.2) last =
      .ok ((), { last with vars := Function.update last.vars i answer.2 }) := rfl
  refine .of_ok set ⟨answer.2, done.counted, ?_⟩
  rw [done.vars]

/-- The references but those of one stream. -/
def Session.rest (σ : Session n) (i : Fin n) : Multiset Addr :=
  (∑ j ∈ σ.opened.erase i, bases (σ.store.vars j).iov) + σ.held

theorem refs_split (inside : i ∈ σ.opened) : σ.refs = bases (σ.store.vars i).iov + σ.rest i := by
  rw [Session.refs, Session.rest, ← add_assoc, Finset.add_sum_erase σ.opened (fun j => bases (σ.store.vars j).iov) inside]

theorem sum_update (vars : Fin n → Stream) (t : Stream) (opened : Finset (Fin n)) :
    ∑ j ∈ opened.erase i, bases (Function.update vars i t j).iov = ∑ j ∈ opened.erase i, bases (vars j).iov := by
  refine Finset.sum_congr rfl fun j inside => ?_
  rw [Function.update_of_ne (Finset.ne_of_mem_erase inside)]

/-- After one stream has changed. -/
theorem refs_update (inside : i ∈ τ.opened) {vars : Fin n → Stream} {t : Stream}
    (changed : τ.store.vars = Function.update vars i t) :
    τ.refs = bases t.iov + ((∑ j ∈ τ.opened.erase i, bases (vars j).iov) + τ.held) := by
  rw [refs_split inside, Session.rest, changed, sum_update, Function.update_self]

theorem Session.Balanced.onStream (balanced : σ.Balanced) (inside : i ∈ σ.opened)
    (keeps : Accounted (bases (σ.store.vars i).iov + σ.rest i) σ.fresh σ.store.vars σ.store →
      Sure (fun answer next => Accounted (bases answer.2.iov + σ.rest i) fresh σ.store.vars next)
        (x (σ.store.vars i) σ.store)) :
    Sure (fun _ next => next.Balanced) (σ.stepWith (onStream i x) fun _ => { σ with fresh := fresh }) := by
  rw [Session.Balanced, refs_split inside] at balanced
  refine stepWith_sure (onStream_sure (f := fun t => bases t.iov + σ.rest i) (keeps ⟨balanced, rfl⟩)) ?_
  rintro answer store ⟨t, counted, changed⟩
  rw [Session.Balanced, refs_update (τ := { σ with fresh := fresh, store := store }) inside changed]
  exact counted

theorem init_balanced (balanced : σ.Balanced) (outside : i ∉ σ.opened) (growsz : Nat) :
    Sure (fun _ next => next.Balanced) (step system iovMax (.init i growsz) σ) := by
  refine stepWith_sure (onStream_sure (f := fun t => bases t.iov + σ.refs) (g := σ.fresh) ?_) ?_
  · refine Sure.bind (Sure.check fun _ => .pure (P := fun (t : Stream) next => bases t.iov = 0 ∧ next = σ.store) ⟨rfl, rfl⟩) ?_
    rintro t next ⟨empty, rfl⟩
    refine .pure ⟨?_, rfl⟩
    rw [empty, zero_add]
    exact balanced
  · rintro answer store ⟨t, counted, changed⟩
    rw [Session.Balanced, refs_update (Finset.mem_insert_self i σ.opened) changed, Finset.erase_insert outside]
    exact counted

theorem fini_balanced (balanced : σ.Balanced) (inside : i ∈ σ.opened) :
    Sure (fun _ next => next.Balanced) (step system iovMax (.fini i) σ) := by
  rw [Session.Balanced, refs_split inside] at balanced
  refine stepWith_sure (onStream_sure (f := fun _ => σ.rest i) (fini_sure ⟨balanced, rfl⟩)) ?_
  rintro answer store ⟨t, counted, changed⟩
  rw [Session.Balanced, Session.refs, changed, sum_update]
  exact counted

theorem step_balanced (op : SessionOp n) (balanced : σ.Balanced) (permitted : Permitted op σ) :
    Sure (fun _ next => next.Balanced) (step system iovMax op σ) := by
  have accounted : Accounted σ.refs σ.fresh σ.store.vars σ.store := ⟨balanced, rfl⟩
  cases op with
  | create sz =>
      refine stepWith_sure (bytesNew_sure system accounted sz) ?_
      rintro p store ⟨a, rfl, -, -, later⟩
      rw [Session.Balanced, Session.refs, later.vars]
      exact later.counted
  | incref a =>
      have known : a ∈ σ.refs ∨ a ∈ σ.fresh := permitted.imp_left fun held => Multiset.mem_add.mpr (.inr held)
      rcases accounted.counted.incref known with ⟨store, run, counted, same⟩
      refine stepWith_sure (.of_ok (P := fun _ next => next = store) run rfl) ?_
      rintro answer _ rfl
      rw [Session.Balanced, Session.refs, same, Multiset.add_cons]
      exact counted
  | decref a =>
      have split : σ.refs = a ::ₘ ((∑ i ∈ σ.opened, bases (σ.store.vars i).iov) + σ.held.erase a) := by
        rw [← Multiset.add_cons, Multiset.cons_erase permitted, Session.refs]
      rw [split] at accounted
      rcases accounted.counted.decref with ⟨store, run, counted, same⟩
      refine stepWith_sure (.of_ok (P := fun _ next => next = store) run rfl) ?_
      rintro answer _ rfl
      rw [Session.Balanced, Session.refs, same]
      exact counted
  | init i growsz => exact init_balanced balanced permitted growsz
  | adopt i a =>
      have known : a ∈ σ.rest i ∨ a ∈ σ.fresh := permitted.2.imp_left fun held => Multiset.mem_add.mpr (.inr held)
      exact balanced.onStream permitted.1 fun accounted => adopt_sure accounted known
  | nprintf i sz text => exact balanced.onStream permitted fun known => nprintf_sure system known sz text
  | buf i sz => exact balanced.onStream permitted fun known => buf_sure system known sz
  | read i sz got => exact balanced.onStream permitted fun known => read_sure known iovMax sz got
  | rewind i => exact balanced.onStream permitted fun known => rewind_sure known
  | fini i => exact fini_balanced balanced permitted

/-- No stream is set up and no record is there. -/
structure Session.Unused (σ : Session n) : Prop where
  heap : σ.store.heap = ∅
  opened : σ.opened = ∅
  held : σ.held = 0
  fresh : σ.fresh = ∅

theorem Session.Unused.balanced (unused : σ.Unused) : σ.Balanced := by
  have refs : σ.refs = 0 := by rw [Session.refs, unused.opened, unused.held, Finset.sum_empty, add_zero]
  rw [Session.Balanced, refs, unused.fresh, unused.heap]
  exact .empty

/-- However the client and the streams take turns, the counts stay right: no step meets a segment that is gone,
and nothing is left when all have given back what they had. -/
theorem reachable_balanced (reached : Reachable (step system iovMax) Session.Unused Permitted σ) :
    σ.Balanced ∧
      (∀ op kind, Permitted op σ → step system iovMax op σ = .error kind → kind = .assertion ∨ kind = .abort) ∧
      (σ.opened = ∅ → σ.held = 0 → σ.fresh = ∅ → σ.store.heap = ∅) := by
  have balanced : σ.Balanced := by
    apply reached.invariant
    · exact fun _ unused => unused.balanced
    · intro op σ answer next balanced permitted stepped
      have sure : Sure (fun _ next => next.Balanced) (step system iovMax op σ) := step_balanced op balanced permitted
      rw [stepped] at sure
      exact sure.of_ends
  refine ⟨balanced, fun op kind permitted failed => ?_, fun opened held fresh => ?_⟩
  · have sure : Sure (fun _ next => next.Balanced) (step system iovMax op σ) := step_balanced op balanced permitted
    rw [failed] at sure
    exact sure.of_error
  · have refs : σ.refs = 0 := by rw [Session.refs, opened, held, Finset.sum_empty, add_zero]
    rw [Session.Balanced, refs, fresh] at balanced
    exact balanced.heap_eq

/-- A record that two streams share with the client. -/
def sampleSession : List (SessionOp 2) :=
  [.create 3, .init 0 8, .init 1 8, .incref 1, .adopt 0 1, .adopt 1 1, .decref 1, .rewind 0, .fini 0]

def newSession : Session 2 := ⟨⟨∅, fun _ => { iov := [], eod := ⟨0, 0, 0⟩, growsz := 8 }, 0⟩, ∅, 0, ∅⟩

theorem sampleSession_balanced :
    ∃ σ, execute (step (.bump ⟨0, 0⟩) 1024) sampleSession newSession = .ok (List.replicate 9 (), σ) ∧ σ.Balanced ∧
      (∀ op kind, Permitted op σ → step (.bump ⟨0, 0⟩) 1024 op σ = .error kind → kind = .assertion ∨ kind = .abort) ∧
      (σ.opened = ∅ → σ.held = 0 → σ.fresh = ∅ → σ.store.heap = ∅) := by
  have ran : (execute (step (.bump ⟨0, 0⟩) 1024) sampleSession newSession).map Prod.fst = .ok (List.replicate 9 ()) := by
    decide +kernel
  have along : Along (step (.bump ⟨0, 0⟩) 1024) Permitted sampleSession newSession := by decide +kernel
  rcases execute_of_answers ran with ⟨σ, ran⟩
  exact ⟨σ, ran, reachable_balanced ((Reachable.start ⟨rfl, rfl, rfl, rfl⟩).execute along ran)⟩

end Sessions

end MnCommon.Vbytestream.Sharing
