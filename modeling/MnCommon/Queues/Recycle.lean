import MnCommon.Queues.Calls

/-! Entries that go from queue to queue with the links they were left with. -/

namespace MnCommon.Queues

open Memory

/-- From the head the links lead over the row, whose last entry is the tail. -/
def Follows {N : Type} (next : N → Ptr) (h : Heap N) (head tail : Ptr) (xs : List Addr) : Prop :=
  (∀ fuel, xs.length ≤ fuel → Links.walk next h fuel head = xs) ∧ tail = xs.getLast?

/-- Entries are put in when they are in no queue, whatever their links are. -/
def DtOp.Recycles (s : DtStore × Rows) : DtOp → Prop
  | .enqueue _ e => e ∈ s.1.heap ∧ Unqueued s.2 e
  | .dequeue _ => True
  | .pop _ => True
  | .entryInit _ => False
  | .remove _ _ => False
  | .insertBefore _ _ _ => False

/-- The call returns and leaves every queue with its row. -/
def DtOp.Right (s : DtStore × Rows) (op : DtOp) : Prop :=
  ∃ next, dtStep op s = .ok ((), next) ∧
    ∀ q, Follows DtqueueEntry.dtqNext next.1.heap (next.1.vars q).dtqHead (next.1.vars q).dtqTail (next.2 q)

/-- An entry that is put into an empty queue has no next one, and the only entry of a
queue that is taken from its tail has no previous one. -/
def DtOp.Clean (s : DtStore × Rows) : DtOp → Prop
  | .enqueue q e => s.2 q = [] → (s.1.heap.lookup e).map DtqueueEntry.dtqNext = some none
  | .pop q => ∀ t, s.2 q = [t] → (s.1.heap.lookup t).map DtqueueEntry.dtqPrev = some none
  | _ => True

variable {s : DtStore} {next : DtStore × Rows} {xs : Rows} {stale : Nat → Ptr} {q : Nat} {e t x : Addr} {op : DtOp}

theorem Lined.follows (lined : Lined (dtView s) xs stale) (q : Nat) :
    Follows DtqueueEntry.dtqNext s.heap (s.vars q).dtqHead (s.vars q).dtqTail (xs q) :=
  ⟨fun _ enough => (lined.forward q).walk enough, lined.tail_eq q⟩

/-- The first entry of a queue points at what lies behind the end of the way back. -/
theorem Lined.stale_eq (lined : Lined (dtView s) xs stale) (row : xs q = [t]) :
    (s.heap.lookup t).map DtqueueEntry.dtqPrev = some (stale q) := by
  have here : xs q = [] ++ [t] := row
  rcases lined.around here with ⟨-, ⟨r, back, before⟩, -⟩
  obtain rfl : r = stale q := before
  exact back

theorem Lined.recycle (lined : Lined (dtView s) xs stale) (recycles : op.Recycles (s, xs)) (clean : op.Clean (s, xs)) :
    ∃ next, dtStep op (s, xs) = .ok ((), next, op.spec xs) ∧ ∃ stale', Lined (dtView next) (op.spec xs) stale' := by
  apply dtStep_of_leads fun v => ∃ stale', Lined v (op.spec xs) stale'
  cases op with
  | entryInit e => exact recycles.elim
  | remove q e => exact recycles.elim
  | insertBefore q b e => exact recycles.elim
  | enqueue q e =>
      rcases recycles with ⟨live, new⟩
      rcases Finmap.mem_iff.mp live with ⟨n, cell⟩
      rcases dtView_lookup cell with ⟨forth, back⟩
      rcases List.eq_nil_or_concat (xs q) with empty | ⟨front, t, row⟩
      · rcases lined.enqueue_empty empty (clean empty) back new with ⟨v, leads, entered⟩
        exact ⟨v, leads, _, entered⟩
      · rw [List.concat_eq_append] at row
        rcases lined.enqueue row forth back new with ⟨v, leads, entered⟩
        exact ⟨v, leads, _, entered⟩
  | dequeue q =>
      rcases lined.dequeue q with ⟨v, leads, left⟩
      exact ⟨v, leads, _, left⟩
  | pop q =>
      have first : ∀ t, xs q = [t] → stale q = none := by
        intro t row
        exact Option.some.inj ((lined.stale_eq row).symm.trans (clean t row))
      rcases lined.pop q first with ⟨v, leads, left⟩
      exact ⟨v, leads, _, left⟩

/-- The entry that the tail of a queue points back at becomes its tail. -/
theorem dtqueuePop_tail {n : DtqueueEntry} {answer : Unit} {final : DtStore} (tail : (s.vars q).dtqTail = some t)
    (cell : s.heap.lookup t = some n) (back : n.dtqPrev = some x) (ran : dtqueuePop q s = .ok (answer, final)) :
    (final.vars q).dtqTail = some x := by
  cases left : s.heap.lookup x with
  | some m =>
      have prev : (dtView s).back t = some (some x) := by rw [(dtView_lookup cell).2, back]
      rcases dtLeads_pop tail (dtView_lookup cell).1 prev (dtView_lookup left).1 s rfl with ⟨next, ran', seen⟩
      cases ran.symm.trans ran'
      have queue := congrArg (fun v => (v.queues q).dtqTail) seen
      simpa [dtView] using queue
  | none =>
      have read : dtqueue q s = .ok (s.vars q, s) := rfl
      have failed : dtqueuePop q s = .error .dangling := by
        rw [dtqueuePop, bind_ok read, if_pos (by simp [tail]), tail, bind_ok (load_ok cell), back]
        rw [bind_ok (show setDtqueue q _ s = .ok ((), _) from rfl), if_neg (by simp), run_bind]
        simp only [setDtqNext, update, left]
      rw [failed] at ran
      cases ran

/-- The store that a call leaves. -/
theorem of_dtStep (stepped : dtStep op (s, xs) = .ok ((), next)) :
    op.prog s = .ok ((), next.1) ∧ next.2 = op.spec xs := by
  rw [dtStep] at stepped
  cases ran : op.prog s with
  | error fault =>
      rw [ran] at stepped
      cases stepped
  | ok result =>
      rw [ran] at stepped
      cases stepped
      exact ⟨rfl, rfl⟩

theorem Lined.clean_of_right (lined : Lined (dtView s) xs stale) (recycles : op.Recycles (s, xs))
    (right : op.Right (s, xs)) : op.Clean (s, xs) := by
  rcases right with ⟨next, stepped, follows⟩
  rcases of_dtStep stepped with ⟨ran, rows⟩
  cases op with
  | entryInit e => exact recycles.elim
  | remove q e => exact recycles.elim
  | insertBefore q b e => exact recycles.elim
  | dequeue q => trivial
  | enqueue q e =>
      intro empty
      have empty : xs q = [] := empty
      rcases Finmap.mem_iff.mp recycles.1 with ⟨n, cell⟩
      rcases dtLeads_enqueue_empty (lined.tail_nil empty) (some e) s rfl with ⟨next', ran', seen⟩
      cases ran.symm.trans ran'
      have head : (next.1.vars q).dtqHead = some e := by
        have queue := congrArg (fun v => (v.queues q).dtqHead) seen
        simpa [dtView] using queue
      have kept : wiring DtqueueEntry.dtqNext next.1.heap e = some n.dtqNext := by
        have links := congrArg (fun v => v.forth e) seen
        exact links.trans (dtView_lookup cell).1
      rcases lookup_of_wiring kept with ⟨m, cell', same⟩
      have row : next.2 q = [e] := by
        rw [rows, DtOp.spec, Function.update_self, empty, List.nil_append]
      have walk := (follows q).1 2 (by simp [row])
      rw [head, row] at walk
      change (s.heap.lookup e).map DtqueueEntry.dtqNext = some none
      rw [cell, Option.map_some, ← same, link_of_walk cell' walk]
  | pop q =>
      intro t row
      have row : xs q = [] ++ [t] := row
      have tail : (s.vars q).dtqTail = some t := lined.tail_last row
      change (s.heap.lookup t).map DtqueueEntry.dtqPrev = some none
      rcases lookup_of_wiring (lined.stale_eq row) with ⟨n, cell, -⟩
      rw [cell, Option.map_some]
      cases back : n.dtqPrev with
      | none => rfl
      | some x =>
          have wrong := dtqueuePop_tail tail cell back ran
          have left : next.2 q = [] := by
            rw [rows, DtOp.spec, Function.update_self, row]
            rfl
          rw [(follows q).2, left] at wrong
          cases wrong

theorem Lined.right (lined : Lined (dtView s) xs stale) (recycles : op.Recycles (s, xs)) (clean : op.Clean (s, xs)) :
    op.Right (s, xs) := by
  rcases lined.recycle recycles clean with ⟨next, stepped, stale', kept⟩
  exact ⟨_, stepped, fun q => kept.follows q⟩

/-- A run of recycled entries keeps every row exactly when each call is clean. -/
theorem dtqueue_right_iff (ops : List DtOp) (s : DtStore) (fresh : ∀ q, s.vars q = Dtqueue.init)
    (recycles : Along dtStep (fun op s => op.Recycles s) ops (s, fun _ => [])) :
    Along dtStep (fun op s => op.Right s) ops (s, fun _ => []) ↔
      Along dtStep (fun op s => op.Clean s) ops (s, fun _ => []) := by
  have locally : ∀ (op : DtOp) (s : DtStore × Rows), op.Recycles s → (∃ stale, Lined (dtView s.1) s.2 stale) →
      (op.Clean s ↔ op.Right s) := by
    rintro op s recycles ⟨stale, lined⟩
    exact ⟨fun clean => lined.right recycles clean, fun right => lined.clean_of_right recycles right⟩
  have keeps : ∀ (op : DtOp) (s : DtStore × Rows) answer next, op.Recycles s →
      (∃ stale, Lined (dtView s.1) s.2 stale) → op.Clean s → dtStep op s = .ok (answer, next) →
      ∃ stale, Lined (dtView next.1) next.2 stale := by
    rintro op s answer next recycles ⟨stale, lined⟩ clean stepped
    rcases lined.recycle recycles clean with ⟨next', stepped', stale', kept⟩
    cases stepped.symm.trans stepped'
    exact ⟨stale', kept⟩
  exact (along_iff_within locally keeps ⟨_, lined_init fresh⟩ recycles).symm

end MnCommon.Queues
