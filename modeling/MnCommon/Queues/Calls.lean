import MnCommon.Memory.Run
import MnCommon.Queues.Lined

/-! Runs of the calls of `dtqueue.h` on any number of queues. -/

namespace MnCommon.Queues

open Memory

/-- The entries of a queue, by the links of both kinds, its ends and its counter. -/
structure Mirrors (h : Heap DtqueueEntry) (queue : Dtqueue) (xs : List Addr) : Prop where
  forward : ∀ fuel, xs.length ≤ fuel → Links.walk DtqueueEntry.dtqNext h fuel queue.dtqHead = xs
  backward : ∀ fuel, xs.length ≤ fuel → Links.walk DtqueueEntry.dtqPrev h fuel queue.dtqTail = xs.reverse
  head : queue.dtqHead = xs.head?
  tail : queue.dtqTail = xs.getLast?
  count : queue.nelems = xs.length

def Unqueued (xs : Rows) (e : Addr) : Prop := ∀ q, e ∉ xs q

/-- An entry is put in with cleared links while it is in no queue. An entry is
taken out of its queue, and one that is in none may be taken out of an empty one. -/
def DtOp.Proper (s : DtStore × Rows) : DtOp → Prop
  | .entryInit e => e ∈ s.1.heap ∧ Unqueued s.2 e
  | .enqueue _ e => s.1.heap.lookup e = some ⟨none, none⟩ ∧ Unqueued s.2 e
  | .dequeue _ => True
  | .pop _ => True
  | .remove q e => e ∈ s.2 q ∨ s.2 q = [] ∧ e ∈ s.1.heap ∧ Unqueued s.2 e
  | .insertBefore q b e => b ∈ s.2 q ∧ s.1.heap.lookup e = some ⟨none, none⟩ ∧ Unqueued s.2 e

variable {s : DtStore} {xs : Rows} {stale : Nat → Ptr} {q : Nat} {a b e : Addr} {u : DtView}
  {op : DtOp} {ops : List DtOp}

theorem Lined.mirrors (lined : Lined (dtView s) xs stale) (clean : stale q = none) :
    Mirrors s.heap (s.vars q) (xs q) := by
  have backward := lined.backward q
  rw [clean] at backward
  refine ⟨fun fuel enough => (lined.forward q).walk enough, fun fuel enough => ?_, (lined.forward q).head,
    lined.tail_eq q, lined.count q⟩
  exact backward.walk (by rwa [List.length_reverse])

theorem insertBefore_append {front rest : List Addr} (outside : b ∉ front) :
    insertBefore b e (front ++ b :: rest) = front ++ e :: b :: rest := by
  induction front with
  | nil => exact if_pos rfl
  | cons a front ih =>
      rw [List.mem_cons, not_or] at outside
      rw [List.cons_append, insertBefore, if_neg (Ne.symm outside.1), ih outside.2, List.cons_append]

/-- A program that leads to other rows is a step. -/
theorem dtStep_of_leads (post : DtView → Prop) (leads : ∃ v, DtLeads op.prog (dtView s) v ∧ post v) :
    ∃ next, dtStep op (s, xs) = .ok ((), next, op.spec xs) ∧ post (dtView next) := by
  rcases leads with ⟨v, leads, holds⟩
  rcases leads s rfl with ⟨next, ran, rfl⟩
  refine ⟨next, ?_, holds⟩
  rw [dtStep, ran]
  rfl

/-- The two links of an entry. -/
theorem dtView_lookup {n : DtqueueEntry} (cell : s.heap.lookup e = some n) :
    (dtView s).forth e = some n.dtqNext ∧ (dtView s).back e = some n.dtqPrev :=
  ⟨wiring_of_lookup cell, wiring_of_lookup cell⟩

private theorem update_none (q : Nat) : Function.update (fun _ : Nat => (none : Ptr)) q none = fun _ => none :=
  Function.update_eq_self q _

theorem Lined.remove (lined : Lined u xs fun _ => none) (inside : e ∈ xs q) :
    ∃ v, DtLeads (dtqueueRemove q (some e)) u v ∧
      Lined v (Function.update xs q ((xs q).erase e)) fun _ => none := by
  rcases List.append_of_mem inside with ⟨front, rest, row⟩
  have distinct := lined.distinct q
  rw [row] at distinct
  have outside : e ∉ front := fun inner => (List.nodup_append.mp distinct).2.2 e inner e (by simp) rfl
  have removed : (xs q).erase e = front ++ rest := by
    rw [row, List.erase_append_right _ outside, List.erase_cons_head]
  rcases lined.known inside with ⟨⟨p, forth⟩, r, back⟩
  rcases lined.removeDirty row rfl with ⟨v, dirty, less, ⟨p', forth'⟩, r', back'⟩
  rw [update_none] at less
  rw [removed]
  have absent : ∀ k, e ∉ Function.update xs q (front ++ rest) k := by
    intro k
    by_cases here : k = q
    · rw [here, Function.update_self]
      rw [List.nodup_middle] at distinct
      exact (List.nodup_cons.mp distinct).1
    · rw [Function.update_of_ne here]
      exact lined.apart q k (Ne.symm here) e inside
  rcases less.entryInit forth' back' absent with ⟨z, cleared, final⟩
  exact ⟨z, dirty.seq cleared, final⟩

theorem Lined.remove_empty (lined : Lined u xs fun _ => none) (empty : xs q = []) {p r : Ptr}
    (forth : u.forth e = some p) (back : u.back e = some r) (new : Unqueued xs e) :
    ∃ v, DtLeads (dtqueueRemove q (some e)) u v ∧
      Lined v (Function.update xs q ((xs q).erase e)) fun _ => none := by
  have same : Function.update xs q ((xs q).erase e) = xs := by
    rw [empty, List.erase_nil, ← empty, Function.update_eq_self]
  rw [same]
  rcases lined.entryInit forth back new with ⟨z, cleared, final⟩
  exact ⟨z, (dtLeads_remove_empty (lined.head_nil empty) (some e)).seq cleared, final⟩

/-- Each call keeps the links of all queues in order. -/
theorem Lined.step (lined : Lined (dtView s) xs fun _ => none) (proper : op.Proper (s, xs)) :
    ∃ next, dtStep op (s, xs) = .ok ((), next, op.spec xs) ∧ Lined (dtView next) (op.spec xs) fun _ => none := by
  apply dtStep_of_leads fun v => Lined v (op.spec xs) fun _ => none
  cases op with
  | entryInit e =>
      rcases proper with ⟨live, new⟩
      rcases Finmap.mem_iff.mp live with ⟨n, cell⟩
      exact lined.entryInit (dtView_lookup cell).1 (dtView_lookup cell).2 new
  | enqueue q e =>
      rcases proper with ⟨cell, new⟩
      rcases dtView_lookup cell with ⟨forth, back⟩
      rcases List.eq_nil_or_concat (xs q) with empty | ⟨front, t, row⟩
      · have entered := lined.enqueue_empty empty forth back new
        rwa [update_none] at entered
      · rw [List.concat_eq_append] at row
        exact lined.enqueue row forth back new
  | dequeue q =>
      have left := lined.dequeue q
      rwa [update_none] at left
  | pop q => exact lined.pop q fun _ _ => rfl
  | remove q e =>
      rcases proper with inside | ⟨empty, live, new⟩
      · exact lined.remove inside
      · rcases Finmap.mem_iff.mp live with ⟨n, cell⟩
        exact lined.remove_empty empty (dtView_lookup cell).1 (dtView_lookup cell).2 new
  | insertBefore q b e =>
      rcases proper with ⟨inside, cell, new⟩
      rcases dtView_lookup cell with ⟨forth, back⟩
      obtain ⟨front, rest, row⟩ : ∃ front rest, xs q = front ++ b :: rest := List.append_of_mem inside
      have distinct := lined.distinct q
      rw [row] at distinct
      have outside : b ∉ front := fun inner => (List.nodup_append.mp distinct).2.2 b inner b (by simp) rfl
      have entered := lined.insertBefore row rfl forth back new
      rw [update_none, ← insertBefore_append outside, ← row] at entered
      exact entered

/-- The links of all queues stay in order along a run. -/
theorem Lined.run (lined : Lined (dtView s) xs fun _ => none)
    (proper : Along dtStep (fun op s => op.Proper s) ops (s, xs)) :
    ∃ answers next, execute dtStep ops (s, xs) = .ok (answers, next, ops.foldl DtOp.spec xs) ∧
      Lined (dtView next) (ops.foldl DtOp.spec xs) fun _ => none := by
  induction ops generalizing s xs with
  | nil => exact ⟨[], s, rfl, lined⟩
  | cons op ops ih =>
      rcases proper with ⟨here, rest⟩
      rcases lined.step here with ⟨next, stepped, kept⟩
      rcases ih kept (rest () (next, op.spec xs) stepped) with ⟨answers, final, later, last⟩
      exact ⟨() :: answers, final, execute_step stepped later, last⟩

/-- Queues that are initialised empty. -/
theorem lined_init (fresh : ∀ q, s.vars q = Dtqueue.init) :
    Lined (dtView s) (fun _ => []) fun _ => none := by
  have queues : ∀ q, (dtView s).queues q = Dtqueue.init := fresh
  refine ⟨⟨fun _ => List.nodup_nil, fun _ _ _ _ => nofun⟩, fun q => ?_, fun q => ?_, fun q => ?_, fun _ _ => rfl⟩
  · rw [queues q]
    rfl
  · rw [queues q]
    rfl
  · rw [queues q]
    rfl

/-- After every sequence of proper calls each queue is what the calls say. -/
theorem dtqueue_sequence (ops : List DtOp) (s : DtStore) (fresh : ∀ q, s.vars q = Dtqueue.init)
    (proper : Along dtStep (fun op s => op.Proper s) ops (s, fun _ => [])) :
    ∃ answers next, execute dtStep ops (s, fun _ => []) = .ok (answers, next, ops.foldl DtOp.spec fun _ => []) ∧
      ∀ q, Mirrors next.heap (next.vars q) (ops.foldl DtOp.spec (fun _ => []) q) := by
  rcases (lined_init fresh).run proper with ⟨answers, next, ran, lined⟩
  exact ⟨answers, next, ran, fun q => lined.mirrors rfl⟩

/-- Three cleared entries and queues that are all empty. -/
def sampleEntries : DtStore where
  heap := ((Finmap.singleton 1 ⟨none, none⟩).insert 2 ⟨none, none⟩).insert 3 ⟨none, none⟩
  vars _ := Dtqueue.init
  tick := 0

theorem unqueued_nil (e : Addr) : Unqueued (fun _ => []) e := fun _ => List.not_mem_nil

theorem Unqueued.update (new : Unqueued xs e) {q : Nat} {ys : List Addr} (outside : e ∉ ys) :
    Unqueued (Function.update xs q ys) e := by
  intro k
  by_cases here : k = q
  · rwa [here, Function.update_self]
  · rw [Function.update_of_ne here]
    exact new k

theorem sampleCalls_proper : Along dtStep (fun op s => op.Proper s)
    [.enqueue 0 1, .enqueue 1 2, .insertBefore 0 1 3, .remove 0 1] (sampleEntries, fun _ => []) := by
  apply Along.of_step rfl ⟨rfl, unqueued_nil 1⟩
  apply Along.of_step rfl ⟨rfl, (unqueued_nil 2).update (by decide)⟩
  apply Along.of_step rfl ⟨by decide, rfl, ((unqueued_nil 3).update (by decide)).update (by decide)⟩
  apply Along.of_step rfl (.inl (by decide))
  trivial

theorem sampleCalls_sequence : ∃ next : DtStore,
    Mirrors next.heap (next.vars 0) [3] ∧ Mirrors next.heap (next.vars 1) [2] := by
  rcases dtqueue_sequence _ sampleEntries (fun _ => rfl) sampleCalls_proper with ⟨answers, next, -, mirrors⟩
  exact ⟨next, mirrors 0, mirrors 1⟩

end MnCommon.Queues
