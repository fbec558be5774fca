import MnCommon.Memory.Strand
import MnCommon.Memory.Run
import MnCommon.Queues.Model

/-! What the calls of `dtqueue.h` do to the queues and to the links of the entries. -/

namespace MnCommon.Queues

open Memory

/-- What the macros see of a store: the queues and the two links of each entry. -/
structure DtView where
  queues : Nat → Dtqueue
  forth : Wiring
  back : Wiring

def dtView (s : DtStore) : DtView :=
  ⟨s.vars, wiring DtqueueEntry.dtqNext s.heap, wiring DtqueueEntry.dtqPrev s.heap⟩

abbrev DtLeads : DtProg Unit → DtView → DtView → Prop := Leads dtView

variable {u v : DtView} {q : Nat} {a b e t : Addr} {p r f g : Ptr}

theorem dtLeads_queue {k : Dtqueue → DtProg Unit} (rest : DtLeads (k (u.queues q)) u v) :
    DtLeads (dtqueue q >>= k) u v := by
  refine Leads.reads (fun s same => ?_) rest
  subst same
  rfl

theorem dtLeads_load {k : DtqueueEntry → DtProg Unit} (forth : u.forth a = some p) (back : u.back a = some r)
    (rest : DtLeads (k ⟨p, r⟩) u v) : DtLeads (load (some a) >>= k) u v := by
  refine Leads.reads (fun s same => ?_) rest
  subst same
  rcases lookup_of_wiring forth with ⟨n, cell, rfl⟩
  rcases lookup_of_wiring back with ⟨m, cell', rfl⟩
  obtain rfl : n = m := Option.some.inj (cell.symm.trans cell')
  exact load_ok cell

theorem dtLeads_set (u : DtView) (q : Nat) (f : Dtqueue → Dtqueue) :
    DtLeads (setDtqueue q f) u { u with queues := Function.update u.queues q (f (u.queues q)) } := by
  intro s same
  subst same
  exact ⟨_, rfl, rfl⟩

theorem dtLeads_next (known : u.forth a = some p) (target : Ptr) :
    DtLeads (setDtqNext (some a) target) u { u with forth := Function.update u.forth a (some target) } := by
  intro s same
  subst same
  rcases lookup_of_wiring known with ⟨n, cell, -⟩
  refine ⟨_, update_ok _ cell, ?_⟩
  simp only [dtView, wiring_insert, ← wiring_of_lookup cell, Function.update_eq_self]

theorem dtLeads_prev (known : u.back a = some p) (target : Ptr) :
    DtLeads (setDtqPrev (some a) target) u { u with back := Function.update u.back a (some target) } := by
  intro s same
  subst same
  rcases lookup_of_wiring known with ⟨n, cell, -⟩
  refine ⟨_, update_ok _ cell, ?_⟩
  simp only [dtView, wiring_insert, ← wiring_of_lookup cell, Function.update_eq_self]

theorem dtLeads_entryInit (forth : u.forth e = some p) (back : u.back e = some r) :
    DtLeads (dtqueueEntryInit (some e)) u
      { u with forth := Function.update u.forth e (some none), back := Function.update u.back e (some none) } := by
  apply (dtLeads_next forth none).seq
  exact dtLeads_prev (by exact back) none

theorem dtLeads_enqueue_empty (empty : (u.queues q).dtqTail = none) (entry : Ptr) :
    DtLeads (dtqueueEnqueue q entry) u
      { u with queues := Function.update u.queues q ⟨entry, entry, (u.queues q).nelems + 1⟩ } := by
  apply dtLeads_queue
  rw [if_pos empty]
  apply (dtLeads_set u q _).seq
  convert dtLeads_set _ q _ using 2
  simp

theorem dtLeads_enqueue (tail : (u.queues q).dtqTail = some t) (last : u.forth t = some p)
    (forth : u.forth e = some f) (back : u.back e = some r) (apart : e ≠ t) :
    DtLeads (dtqueueEnqueue q (some e)) u
      { queues := Function.update u.queues q ⟨(u.queues q).dtqHead, some e, (u.queues q).nelems + 1⟩
        forth := Function.update (Function.update u.forth t (some (some e))) e (some none)
        back := Function.update u.back e (some (some t)) } := by
  apply dtLeads_queue
  have filled : ¬(u.queues q).dtqTail = none := by simp [tail]
  rw [if_neg filled, tail]
  apply (dtLeads_next last (some e)).seq
  apply (dtLeads_prev (by exact back) (some t)).seq
  have known : Function.update u.forth t (some (some e)) e = some f := by rw [Function.update_of_ne apart, forth]
  apply (dtLeads_next (by exact known) none).seq
  apply (dtLeads_set _ q _).seq
  convert dtLeads_set _ q _ using 2
  simp

theorem dtLeads_dequeue_empty (empty : (u.queues q).dtqHead = none) :
    DtLeads (dtqueueDequeue q) u
      { u with queues := Function.update u.queues q { u.queues q with dtqTail := none } } := by
  apply dtLeads_queue
  rw [if_neg (not_not.mpr empty)]
  exact dtLeads_set u q _

theorem dtLeads_dequeue_last (head : (u.queues q).dtqHead = some a) (forth : u.forth a = some none)
    (back : u.back a = some r) :
    DtLeads (dtqueueDequeue q) u
      { u with queues := Function.update u.queues q ⟨none, none, (u.queues q).nelems - 1⟩ } := by
  apply dtLeads_queue
  rw [if_pos (by simp [head]), head]
  apply dtLeads_load forth back
  apply (dtLeads_set u q _).seq
  apply (dtLeads_set _ q _).seq
  convert dtLeads_set _ q _ using 2
  simp

theorem dtLeads_dequeue (head : (u.queues q).dtqHead = some a) (forth : u.forth a = some (some b))
    (back : u.back a = some r) (second : u.back b = some p) :
    DtLeads (dtqueueDequeue q) u
      { u with
        queues := Function.update u.queues q ⟨some b, (u.queues q).dtqTail, (u.queues q).nelems - 1⟩
        back := Function.update u.back b (some none) } := by
  apply dtLeads_queue
  rw [if_pos (by simp [head]), head]
  apply dtLeads_load forth back
  apply (dtLeads_set u q _).seq
  apply (dtLeads_prev (by exact second) none).seq
  convert dtLeads_set _ q _ using 2
  simp

theorem dtLeads_pop_empty (empty : (u.queues q).dtqTail = none) :
    DtLeads (dtqueuePop q) u
      { u with queues := Function.update u.queues q { u.queues q with dtqHead := none } } := by
  apply dtLeads_queue
  rw [if_neg (not_not.mpr empty)]
  exact dtLeads_set u q _

theorem dtLeads_pop_last (tail : (u.queues q).dtqTail = some t) (forth : u.forth t = some f)
    (back : u.back t = some none) :
    DtLeads (dtqueuePop q) u
      { u with queues := Function.update u.queues q ⟨none, none, (u.queues q).nelems - 1⟩ } := by
  apply dtLeads_queue
  rw [if_pos (by simp [tail]), tail]
  apply dtLeads_load forth back
  apply (dtLeads_set u q _).seq
  apply (dtLeads_set _ q _).seq
  convert dtLeads_set _ q _ using 2
  simp

theorem dtLeads_pop (tail : (u.queues q).dtqTail = some t) (forth : u.forth t = some f)
    (back : u.back t = some (some b)) (left : u.forth b = some p) :
    DtLeads (dtqueuePop q) u
      { u with
        queues := Function.update u.queues q ⟨(u.queues q).dtqHead, some b, (u.queues q).nelems - 1⟩
        forth := Function.update u.forth b (some none) } := by
  apply dtLeads_queue
  rw [if_pos (by simp [tail]), tail]
  apply dtLeads_load forth back
  apply (dtLeads_set u q _).seq
  apply (dtLeads_next (by exact left) none).seq
  convert dtLeads_set _ q _ using 2
  simp

section removal

variable (head : (u.queues q).dtqHead ≠ none) (tail : (u.queues q).dtqTail ≠ none)

include head tail

theorem dtLeads_remove_middle (forth : u.forth e = some (some b)) (back : u.back e = some (some a))
    (left : u.forth a = some p) (right : u.back b = some r) :
    DtLeads (dtqueueRemoveDirty q (some e)) u
      { queues := Function.update u.queues q { u.queues q with nelems := (u.queues q).nelems - 1 }
        forth := Function.update u.forth a (some (some b))
        back := Function.update u.back b (some (some a)) } := by
  apply dtLeads_queue
  rw [if_pos ⟨head, tail⟩]
  apply dtLeads_load forth back
  apply (dtLeads_next left (some b)).seq
  apply (dtLeads_prev (by exact right) (some a)).seq
  exact dtLeads_set _ q _

theorem dtLeads_remove_tail (forth : u.forth e = some none) (back : u.back e = some (some a))
    (left : u.forth a = some p) :
    DtLeads (dtqueueRemoveDirty q (some e)) u
      { u with
        queues := Function.update u.queues q ⟨(u.queues q).dtqHead, some a, (u.queues q).nelems - 1⟩
        forth := Function.update u.forth a (some none) } := by
  apply dtLeads_queue
  rw [if_pos ⟨head, tail⟩]
  apply dtLeads_load forth back
  apply (dtLeads_set u q _).seq
  apply (dtLeads_next (by exact left) none).seq
  convert dtLeads_set _ q _ using 2
  simp

theorem dtLeads_remove_head (forth : u.forth e = some (some b)) (back : u.back e = some none)
    (right : u.back b = some r) :
    DtLeads (dtqueueRemoveDirty q (some e)) u
      { u with
        queues := Function.update u.queues q ⟨some b, (u.queues q).dtqTail, (u.queues q).nelems - 1⟩
        back := Function.update u.back b (some none) } := by
  apply dtLeads_queue
  rw [if_pos ⟨head, tail⟩]
  apply dtLeads_load forth back
  apply (dtLeads_set u q _).seq
  apply (dtLeads_prev (by exact right) none).seq
  convert dtLeads_set _ q _ using 2
  simp

theorem dtLeads_remove_only (forth : u.forth e = some none) (back : u.back e = some none) :
    DtLeads (dtqueueRemoveDirty q (some e)) u
      { u with queues := Function.update u.queues q ⟨none, none, (u.queues q).nelems - 1⟩ } := by
  apply dtLeads_queue
  rw [if_pos ⟨head, tail⟩]
  apply dtLeads_load forth back
  apply (dtLeads_set u q _).seq
  apply (dtLeads_set _ q _).seq
  convert dtLeads_set _ q _ using 2
  simp

end removal

theorem dtLeads_remove_empty (empty : (u.queues q).dtqHead = none) (e : Ptr) :
    DtLeads (dtqueueRemoveDirty q e) u u := by
  apply dtLeads_queue
  rw [if_neg fun both => both.1 empty]
  exact Leads.skip dtView u

theorem dtLeads_insert_head (forth : u.forth b = some f) (back : u.back b = some none)
    (forth' : u.forth e = some p) (back' : u.back e = some r) (apart : b ≠ e) :
    DtLeads (dtqueueInsertBefore q (some b) (some e)) u
      { queues := Function.update u.queues q ⟨some e, (u.queues q).dtqTail, (u.queues q).nelems + 1⟩
        forth := Function.update u.forth e (some (some b))
        back := Function.update (Function.update u.back e (some none)) b (some (some e)) } := by
  apply Leads.check (by simp)
  apply dtLeads_load forth back
  apply (dtLeads_set u q _).seq
  apply (dtLeads_prev (by exact back') none).seq
  have known : Function.update u.back e (some none) b = some none := by rw [Function.update_of_ne apart, back]
  apply (dtLeads_prev (by exact known) (some e)).seq
  apply (dtLeads_next (by exact forth') (some b)).seq
  convert dtLeads_set _ q _ using 2
  simp

theorem dtLeads_insert (forth : u.forth b = some f) (back : u.back b = some (some a))
    (forth' : u.forth e = some p) (back' : u.back e = some r) (left : u.forth a = some g) (apart : b ≠ e)
    (new : a ≠ e) :
    DtLeads (dtqueueInsertBefore q (some b) (some e)) u
      { queues := Function.update u.queues q { u.queues q with nelems := (u.queues q).nelems + 1 }
        forth := Function.update (Function.update u.forth a (some (some e))) e (some (some b))
        back := Function.update (Function.update u.back e (some (some a))) b (some (some e)) } := by
  apply Leads.check (by simp)
  apply dtLeads_load forth back
  apply (dtLeads_prev (by exact back') (some a)).seq
  have known : Function.update u.back e (some (some a)) b = some (some a) := by
    rw [Function.update_of_ne apart, back]
  apply (dtLeads_prev (by exact known) (some e)).seq
  have kept : Function.update (Function.update u.back e (some (some a))) b (some (some e)) e = some (some a) := by
    rw [Function.update_of_ne apart.symm, Function.update_self]
  apply dtLeads_load (by exact forth') (by exact kept)
  apply (dtLeads_next (by exact left) (some e)).seq
  have room : Function.update u.forth a (some (some e)) e = some p := by
    rw [Function.update_of_ne new.symm, forth']
  apply (dtLeads_next (by exact room) (some b)).seq
  exact dtLeads_set _ q _

end MnCommon.Queues
