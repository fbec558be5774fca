import MnCommon.Queues.Dtqueue

/-! Doubly linked queues as rows of entries, under every order of the calls. -/

namespace MnCommon.Queues

open Memory

/-- No entry is in two places. -/
structure Separate (xs : Rows) : Prop where
  distinct : ∀ q, (xs q).Nodup
  apart : ∀ q r, q ≠ r → ∀ a ∈ xs q, a ∉ xs r

/-- Each queue links its row. The links back from the tail lead beyond the head to
`stale`, where the first entry points to. -/
structure Lined (u : DtView) (xs : Rows) (stale : Nat → Ptr) : Prop extends Separate xs where
  forward : ∀ q, Strand u.forth (u.queues q).dtqHead (xs q) none
  backward : ∀ q, Strand u.back (u.queues q).dtqTail (xs q).reverse (stale q)
  count : ∀ q, (u.queues q).nelems = (xs q).length
  ends : ∀ q, xs q = [] → stale q = none

variable {u v : DtView} {xs : Rows} {stale : Nat → Ptr} {q : Nat} {a b e t : Addr} {p r f : Ptr}
  {front rest ys : List Addr} {queue : Dtqueue}

theorem Separate.update (rows : Separate xs) {q : Nat} (distinct : ys.Nodup)
    (others : ∀ k, k ≠ q → ∀ a ∈ xs k, a ∉ ys) : Separate (Function.update xs q ys) := by
  refine ⟨fun k => ?_, fun k j different => ?_⟩
  · by_cases here : k = q
    · rwa [here, Function.update_self]
    · rw [Function.update_of_ne here]
      exact rows.distinct k
  · by_cases here : k = q
    · subst here
      rw [Function.update_self, Function.update_of_ne different.symm]
      exact fun a inside other => others j different.symm a other inside
    · rw [Function.update_of_ne here]
      by_cases there : j = q
      · subst there
        rw [Function.update_self]
        exact others k here
      · rw [Function.update_of_ne there]
        exact rows.apart k j different

/-- One queue gets another row; the entries of the others are left alone. -/
theorem Lined.change (lined : Lined u xs stale) (q : Nat) (queues : v.queues = Function.update u.queues q queue)
    (forward : Strand v.forth queue.dtqHead ys none) (backward : Strand v.back queue.dtqTail ys.reverse r)
    (count : queue.nelems = ys.length) (distinct : ys.Nodup) (ends : ys = [] → r = none)
    (others : ∀ k, k ≠ q → ∀ a ∈ xs k, v.forth a = u.forth a ∧ v.back a = u.back a ∧ a ∉ ys) :
    Lined v (Function.update xs q ys) (Function.update stale q r) := by
  have queue_self : v.queues q = queue := by rw [queues, Function.update_self]
  have queue_other : ∀ k, k ≠ q → v.queues k = u.queues k := by
    intro k other
    rw [queues, Function.update_of_ne other]
  have rows := lined.update distinct fun k other a inside => (others k other a inside).2.2
  refine ⟨rows, fun k => ?_, fun k => ?_, fun k => ?_, fun k => ?_⟩
  · by_cases here : k = q
    · subst here
      rwa [queue_self, Function.update_self]
    · rw [queue_other k here, Function.update_of_ne here]
      exact (lined.forward k).frame fun a inside => (others k here a inside).1
  · by_cases here : k = q
    · subst here
      rwa [queue_self, Function.update_self, Function.update_self]
    · rw [queue_other k here, Function.update_of_ne here, Function.update_of_ne here]
      exact (lined.backward k).frame fun a inside => (others k here a (List.mem_reverse.mp inside)).2.1
  · by_cases here : k = q
    · subst here
      rwa [queue_self, Function.update_self]
    · rw [queue_other k here, Function.update_of_ne here]
      exact lined.count k
  · by_cases here : k = q
    · subst here
      rwa [Function.update_self, Function.update_self]
    · rw [Function.update_of_ne here, Function.update_of_ne here]
      exact lined.ends k

/-- One queue gets another row and the first entry the same link back. -/
theorem Lined.keep (lined : Lined u xs stale) (q : Nat) (queues : v.queues = Function.update u.queues q queue)
    (forward : Strand v.forth queue.dtqHead ys none) (backward : Strand v.back queue.dtqTail ys.reverse (stale q))
    (count : queue.nelems = ys.length) (distinct : ys.Nodup) (ends : ys = [] → stale q = none)
    (others : ∀ k, k ≠ q → ∀ a ∈ xs k, v.forth a = u.forth a ∧ v.back a = u.back a ∧ a ∉ ys) :
    Lined v (Function.update xs q ys) stale := by
  have changed := lined.change q queues forward backward count distinct ends others
  rwa [Function.update_eq_self] at changed

theorem Lined.known (lined : Lined u xs stale) (inside : a ∈ xs q) :
    (∃ p, u.forth a = some p) ∧ ∃ r, u.back a = some r :=
  ⟨(lined.forward q).known inside, (lined.backward q).known (List.mem_reverse.mpr inside)⟩

theorem Lined.tail_nil (lined : Lined u xs stale) (empty : xs q = []) : (u.queues q).dtqTail = none := by
  have backward := lined.backward q
  rw [empty, lined.ends q empty] at backward
  exact backward

theorem Lined.head_nil (lined : Lined u xs stale) (empty : xs q = []) : (u.queues q).dtqHead = none := by
  have forward := lined.forward q
  rw [empty] at forward
  exact forward

theorem Lined.tail_last (lined : Lined u xs stale) (row : xs q = front ++ [t]) :
    (u.queues q).dtqTail = some t := by
  have backward := lined.backward q
  rw [row, List.reverse_append] at backward
  exact backward.1

theorem Lined.tail_eq (lined : Lined u xs stale) (q : Nat) : (u.queues q).dtqTail = (xs q).getLast? := by
  rcases List.eq_nil_or_concat (xs q) with empty | ⟨front, t, row⟩
  · rw [lined.tail_nil empty, empty, List.getLast?_nil]
  · rw [List.concat_eq_append] at row
    rw [lined.tail_last row, row, List.getLast?_concat]

/-- The links of an entry of a row are its neighbours. -/
theorem Lined.around (lined : Lined u xs stale) (row : xs q = front ++ a :: rest) :
    u.forth a = some rest.head? ∧ (∃ r, u.back a = some r ∧ Strand u.back r front.reverse (stale q)) ∧
      Strand u.forth (u.queues q).dtqHead front (some a) ∧ Strand u.forth rest.head? rest none ∧
      Strand u.back (u.queues q).dtqTail rest.reverse (some a) := by
  have forward := lined.forward q
  have backward := lined.backward q
  rw [row] at forward
  rw [row, List.reverse_append, List.reverse_cons, List.append_assoc, List.singleton_append] at backward
  rcases forward.split with ⟨further, known, first, behind⟩
  rcases backward.split with ⟨r, back, last, before⟩
  have next : further = rest.head? := behind.head
  rw [next] at known behind
  exact ⟨known, ⟨r, back, before⟩, first, behind, last⟩

/-- An entry whose links are NULL enters an empty queue. -/
theorem Lined.enqueue_empty (lined : Lined u xs stale) (empty : xs q = []) (forth : u.forth e = some none)
    (back : u.back e = some r) (new : ∀ k, e ∉ xs k) :
    ∃ v, DtLeads (dtqueueEnqueue q (some e)) u v ∧
      Lined v (Function.update xs q (xs q ++ [e])) (Function.update stale q r) := by
  refine ⟨_, dtLeads_enqueue_empty (lined.tail_nil empty) (some e), ?_⟩
  rw [empty, List.nil_append]
  apply lined.change q rfl
  · exact strand_singleton.mpr ⟨rfl, forth⟩
  · exact strand_singleton.mpr ⟨rfl, back⟩
  · rw [lined.count q, empty, List.length_nil, List.length_singleton]
  · exact List.nodup_singleton e
  · intro wrong
    exact absurd wrong (List.cons_ne_nil e [])
  · intro k _ a inside
    refine ⟨rfl, rfl, fun same => ?_⟩
    exact new k (List.mem_singleton.mp same ▸ inside)

theorem Lined.enqueue (lined : Lined u xs stale) (row : xs q = front ++ [t]) (forth : u.forth e = some f)
    (back : u.back e = some r) (new : ∀ k, e ∉ xs k) :
    ∃ v, DtLeads (dtqueueEnqueue q (some e)) u v ∧
      Lined v (Function.update xs q (xs q ++ [e])) stale := by
  have inside : t ∈ xs q := by simp [row]
  have apart : e ≠ t := fun same => new q (same ▸ inside)
  rcases lined.around row with ⟨last, ⟨p, before, further⟩, first, -, -⟩
  refine ⟨_, dtLeads_enqueue (lined.tail_last row) last forth back apart, ?_⟩
  have distinct := lined.distinct q
  rw [row] at distinct
  have outside : t ∉ front := fun inner => (List.nodup_append.mp distinct).2.2 t inner t (by simp) rfl
  have outer : e ∉ front := fun inner => new q (by simp [row, inner])
  apply lined.keep q rfl
  · rw [row, List.append_assoc]
    refine strand_append.mpr ⟨some t, (first.update outside _).update outer _, rfl, some e, ?_, ?_⟩
    · exact (Function.update_of_ne apart.symm _ _).trans (Function.update_self _ _ _)
    · exact strand_singleton.mpr ⟨rfl, Function.update_self _ _ _⟩
  · rw [row, List.reverse_append, List.reverse_append]
    refine ⟨rfl, some t, Function.update_self _ _ _, rfl, p, ?_, ?_⟩
    · exact (Function.update_of_ne apart.symm _ _).trans before
    · exact further.update (fun inner => outer (List.mem_reverse.mp inner)) _
  · rw [List.length_append, List.length_singleton, lined.count q]
  · rw [row]
    refine List.nodup_append.mpr ⟨distinct, List.nodup_singleton e, fun a member b single => ?_⟩
    rintro rfl
    exact new q (by rw [row]; exact List.mem_singleton.mp single ▸ member)
  · intro wrong
    exact absurd wrong (by simp)
  · intro k other a member
    have unlike : a ≠ e := fun same => new k (same ▸ member)
    have unlike' : a ≠ t := fun same => lined.apart k q other a member (same ▸ inside)
    refine ⟨?_, Function.update_of_ne unlike _ _, ?_⟩
    · exact (Function.update_of_ne unlike _ _).trans (Function.update_of_ne unlike' _ _)
    · intro inner
      rcases List.mem_append.mp inner with old | single
      · exact lined.apart k q other a member old
      · exact unlike (List.mem_singleton.mp single)

theorem Lined.dequeue (lined : Lined u xs stale) (q : Nat) :
    ∃ v, DtLeads (dtqueueDequeue q) u v ∧
      Lined v (Function.update xs q (xs q).tail) (Function.update stale q none) := by
  cases row : xs q with
  | nil =>
      refine ⟨_, dtLeads_dequeue_empty (lined.head_nil row), ?_⟩
      apply lined.change q rfl
      · exact lined.head_nil row
      · rfl
      · rw [List.tail_nil, lined.count q, row]
      · exact List.nodup_nil
      · exact fun _ => rfl
      · exact fun k _ a _ => ⟨rfl, rfl, List.not_mem_nil⟩
  | cons a rest =>
      have here : xs q = [] ++ a :: rest := row
      rcases lined.around here with ⟨forth, ⟨r, back, -⟩, -, behind, last⟩
      have head : (u.queues q).dtqHead = some a := by
        have forward := lined.forward q
        rw [row] at forward
        exact forward.first
      have distinct := lined.distinct q
      rw [row] at distinct
      rw [List.tail_cons]
      cases rest with
      | nil =>
          refine ⟨_, dtLeads_dequeue_last head forth back, ?_⟩
          apply lined.change q rfl
          · rfl
          · rfl
          · rw [lined.count q, row, List.length_singleton, List.length_nil]
          · exact List.nodup_nil
          · exact fun _ => rfl
          · exact fun k _ a _ => ⟨rfl, rfl, List.not_mem_nil⟩
      | cons b rest =>
          have inside : b ∈ xs q := by simp [row]
          rcases lined.known inside with ⟨-, r, second⟩
          have outside : b ∉ rest := (List.nodup_cons.mp (List.nodup_cons.mp distinct).2).1
          refine ⟨_, dtLeads_dequeue head forth back second, ?_⟩
          apply lined.change q rfl
          · exact behind
          · rw [List.reverse_cons] at last ⊢
            exact last.redirect (fun inner => outside (List.mem_reverse.mp inner)) none
          · rw [lined.count q, row, List.length_cons, Nat.add_sub_cancel]
          · exact (List.nodup_cons.mp distinct).2
          · exact fun wrong => absurd wrong (List.cons_ne_nil b rest)
          · intro k other c member
            have apart := lined.apart k q other c member
            refine ⟨rfl, Function.update_of_ne (fun same : c = b => apart (same ▸ inside)) _ _, fun inner => apart ?_⟩
            rw [row]
            exact List.mem_cons_of_mem a inner

/-- The last entry of a queue is taken out. Where it is the only one its link back
has to be NULL. -/
theorem Lined.pop (lined : Lined u xs stale) (q : Nat) (clean : ∀ t, xs q = [t] → stale q = none) :
    ∃ v, DtLeads (dtqueuePop q) u v ∧ Lined v (Function.update xs q (xs q).dropLast) stale := by
  rcases List.eq_nil_or_concat (xs q) with row | ⟨front, t, row⟩
  · refine ⟨_, dtLeads_pop_empty (lined.tail_nil row), ?_⟩
    rw [row, List.dropLast_nil]
    apply lined.keep q rfl
    · rfl
    · rw [lined.ends q row]
      exact lined.tail_nil row
    · rw [lined.count q, row]
    · exact List.nodup_nil
    · exact fun _ => lined.ends q row
    · exact fun k _ a _ => ⟨rfl, rfl, List.not_mem_nil⟩
  rw [List.concat_eq_append] at row
  rcases lined.around row with ⟨forth, ⟨r, back, before⟩, first, -, -⟩
  rw [row, List.dropLast_concat]
  rcases List.eq_nil_or_concat front with rfl | ⟨front, b, rfl⟩
  · have only := clean t row
    have here : r = none := before.trans only
    rw [here] at back
    refine ⟨_, dtLeads_pop_last (lined.tail_last row) forth back, ?_⟩
    apply lined.keep q rfl
    · rfl
    · exact only.symm
    · rw [lined.count q, row, List.nil_append, List.length_singleton, List.length_nil]
    · exact List.nodup_nil
    · exact fun _ => only
    · exact fun k _ a _ => ⟨rfl, rfl, List.not_mem_nil⟩
  rw [List.concat_eq_append] at *
  have inside : b ∈ xs q := by simp [row]
  rcases lined.known inside with ⟨⟨p, left⟩, -⟩
  have distinct := lined.distinct q
  rw [row] at distinct
  have shorter : (front ++ [b]).Nodup := (List.nodup_append.mp distinct).1
  have outside : b ∉ front := fun inner => (List.nodup_append.mp shorter).2.2 b inner b (by simp) rfl
  have here : r = some b := by
    rw [List.reverse_append] at before
    exact before.first
  rw [here] at back before
  refine ⟨_, dtLeads_pop (lined.tail_last row) forth back left, ?_⟩
  apply lined.keep q rfl
  · exact first.redirect outside none
  · exact before
  · rw [lined.count q, row, List.length_append, List.length_singleton, Nat.add_sub_cancel]
  · exact shorter
  · exact fun wrong => absurd wrong (by simp)
  · intro k other c member
    have apart := lined.apart k q other c member
    refine ⟨Function.update_of_ne (fun same : c = b => apart (same ▸ inside)) _ _, rfl, fun inner => apart ?_⟩
    rw [row]
    exact List.mem_append_left [t] inner

/-- The links of an entry in no queue do not matter. -/
theorem Lined.rewire (lined : Lined u xs stale) (new : ∀ k, e ∉ xs k) (f r : Option Ptr) :
    Lined { u with forth := Function.update u.forth e f, back := Function.update u.back e r } xs stale := by
  refine { lined with forward := fun q => ?_, backward := fun q => ?_ }
  · exact (lined.forward q).update (new q) f
  · exact (lined.backward q).update (fun inner => new q (List.mem_reverse.mp inner)) r

theorem Lined.entryInit (lined : Lined u xs stale) (forth : u.forth e = some p) (back : u.back e = some r)
    (new : ∀ k, e ∉ xs k) : ∃ v, DtLeads (dtqueueEntryInit (some e)) u v ∧ Lined v xs stale :=
  ⟨_, dtLeads_entryInit forth back, lined.rewire new _ _⟩

/-- A row without one of its entries. -/
theorem Lined.without (lined : Lined u xs stale) (row : xs q = front ++ e :: rest) :
    (front ++ rest).Nodup ∧ (u.queues q).nelems - 1 = (front ++ rest).length ∧
      ∀ k, k ≠ q → ∀ c ∈ xs k, c ∉ front ++ rest := by
  have distinct := lined.distinct q
  rw [row] at distinct
  refine ⟨distinct.sublist (by simp), ?_, fun k other c member inner => ?_⟩
  · rw [lined.count q, row, List.length_append, List.length_append, List.length_cons]
    omega
  · apply lined.apart k q other c member
    rw [row]
    rcases List.mem_append.mp inner with left | right
    · exact List.mem_append_left _ left
    · exact List.mem_append_right _ (List.mem_cons_of_mem e right)

theorem Lined.ends_set (lined : Lined u xs stale) (row : xs q = front ++ e :: rest) :
    (u.queues q).dtqHead ≠ none ∧ (u.queues q).dtqTail ≠ none := by
  rw [(lined.forward q).head, lined.tail_eq q, row]
  simp

/-- An entry leaves a row for good. -/
def Leaves (q : Nat) (e : Addr) (u : DtView) (xs : Rows) (stale : Nat → Ptr) (ys : List Addr) : Prop :=
  ∃ v, DtLeads (dtqueueRemoveDirty q (some e)) u v ∧
    Lined v (Function.update xs q ys) (Function.update stale q none) ∧
    (∃ p, v.forth e = some p) ∧ ∃ r, v.back e = some r

theorem Lined.remove_only (lined : Lined u xs stale) (row : xs q = [e]) (clean : stale q = none) :
    Leaves q e u xs stale [] := by
  have row' : xs q = [] ++ e :: [] := row
  rcases lined.around row' with ⟨forth, ⟨r, back, before⟩, first, behind, last⟩
  rcases lined.without row' with ⟨shorter, count, others⟩
  rcases lined.ends_set row' with ⟨head, tail⟩
  rw [clean] at before
  obtain rfl : r = none := before
  refine ⟨_, dtLeads_remove_only head tail forth back, ?_, ⟨_, forth⟩, _, back⟩
  apply lined.change q rfl ?_ ?_ count shorter fun _ => rfl
  · exact fun k other c member => ⟨rfl, rfl, others k other c member⟩
  · rfl
  · rfl

theorem Lined.remove_head (lined : Lined u xs stale) (row : xs q = e :: b :: rest) (clean : stale q = none) :
    Leaves q e u xs stale (b :: rest) := by
  have row' : xs q = [] ++ e :: b :: rest := row
  rcases lined.around row' with ⟨forth, ⟨r, back, before⟩, first, behind, last⟩
  rcases lined.without row' with ⟨shorter, count, others⟩
  rcases lined.ends_set row' with ⟨head, tail⟩
  rw [clean] at before
  obtain rfl : r = none := before
  have second : ∃ r, u.back b = some r := (lined.known (q := q) (by simp [row])).2
  rcases second with ⟨r, second⟩
  have outside : b ∉ rest := (List.nodup_cons.mp shorter).1
  refine ⟨_, dtLeads_remove_head head tail forth back second, ?_, ⟨_, forth⟩, known_update ⟨_, back⟩ _ _⟩
  apply lined.change q rfl behind ?_ count shorter fun _ => rfl
  · intro k other c member
    have unlike : c ≠ b := fun same => others k other c member (by simp [same])
    exact ⟨rfl, Function.update_of_ne unlike _ _, others k other c member⟩
  · rw [List.nil_append, List.reverse_cons] at *
    exact last.redirect (fun inner => outside (List.mem_reverse.mp inner)) none

theorem Lined.remove_tail (lined : Lined u xs stale) (row : xs q = front ++ [a] ++ [e]) (clean : stale q = none) :
    Leaves q e u xs stale (front ++ [a]) := by
  rcases lined.around row with ⟨forth, ⟨r, back, before⟩, first, behind, last⟩
  rcases lined.without row with ⟨shorter, count, others⟩
  rcases lined.ends_set row with ⟨head, tail⟩
  rw [clean, List.reverse_append] at before
  obtain rfl : r = some a := before.first
  rw [List.append_nil] at shorter count others
  have left : ∃ f, u.forth a = some f := (lined.known (q := q) (by simp [row])).1
  rcases left with ⟨f, left⟩
  have outside : a ∉ front := fun inner => (List.nodup_append.mp shorter).2.2 a inner a (by simp) rfl
  refine ⟨_, dtLeads_remove_tail head tail forth back left, ?_, known_update ⟨_, forth⟩ _ _, _, back⟩
  apply lined.change q rfl (first.redirect outside none) ?_ count shorter fun _ => rfl
  · intro k other c member
    have unlike : c ≠ a := fun same => others k other c member (by simp [same])
    exact ⟨Function.update_of_ne unlike _ _, rfl, others k other c member⟩
  · rwa [List.reverse_append]

theorem Lined.remove_middle (lined : Lined u xs stale) (row : xs q = front ++ [a] ++ e :: b :: rest)
    (clean : stale q = none) : Leaves q e u xs stale (front ++ [a] ++ b :: rest) := by
  rcases lined.around row with ⟨forth, ⟨r, back, before⟩, first, behind, last⟩
  rcases lined.without row with ⟨shorter, count, others⟩
  rcases lined.ends_set row with ⟨head, tail⟩
  rw [clean, List.reverse_append] at before
  obtain rfl : r = some a := before.first
  have left : ∃ f, u.forth a = some f := (lined.known (q := q) (by simp [row])).1
  rcases left with ⟨f, left⟩
  have second : ∃ r, u.back b = some r := (lined.known (q := q) (by simp [row])).2
  rcases second with ⟨r, second⟩
  have apart := List.nodup_append.mp shorter
  have outside : a ∉ front := fun inner => (List.nodup_append.mp apart.1).2.2 a inner a (by simp) rfl
  have outer : b ∉ rest := (List.nodup_cons.mp apart.2.1).1
  refine ⟨_, dtLeads_remove_middle head tail forth back left second, ?_,
    known_update ⟨_, forth⟩ _ _, known_update ⟨_, back⟩ _ _⟩
  apply lined.change q rfl ?_ ?_ count shorter fun _ => rfl
  · intro k other c member
    have unlike : c ≠ a := fun same => others k other c member (by simp [same])
    have unlike' : c ≠ b := fun same => others k other c member (by simp [same])
    exact ⟨Function.update_of_ne unlike _ _, Function.update_of_ne unlike' _ _, others k other c member⟩
  · refine strand_append.mpr ⟨some b, first.redirect outside (some b), ?_⟩
    exact behind.update (fun inner => apart.2.2 a (by simp) a inner rfl) _
  · rw [List.reverse_append, List.reverse_append]
    refine strand_append.mpr ⟨some a, ?_, ?_⟩
    · rw [List.reverse_cons] at last ⊢
      exact last.redirect (fun inner => outer (List.mem_reverse.mp inner)) (some a)
    · refine before.update (fun inner => ?_) _
      rw [← List.reverse_append] at inner
      exact apart.2.2 b (List.mem_reverse.mp inner) b (by simp) rfl

/-- An entry is taken out of a row. -/
theorem Lined.removeDirty (lined : Lined u xs stale) (row : xs q = front ++ e :: rest) (clean : stale q = none) :
    ∃ v, DtLeads (dtqueueRemoveDirty q (some e)) u v ∧
      Lined v (Function.update xs q (front ++ rest)) (Function.update stale q none) ∧
      (∃ p, v.forth e = some p) ∧ ∃ r, v.back e = some r := by
  rcases List.eq_nil_or_concat front with rfl | ⟨front, a, rfl⟩
  · cases rest with
    | nil => exact lined.remove_only row clean
    | cons b rest => exact lined.remove_head row clean
  · rw [List.concat_eq_append] at row ⊢
    cases rest with
    | nil =>
        have removed := lined.remove_tail row clean
        rwa [← List.append_nil (front ++ [a])] at removed
    | cons b rest => exact lined.remove_middle row clean

/-- A row with one more entry. -/
theorem Lined.with_one (lined : Lined u xs stale) (row : xs q = front ++ b :: rest) (new : ∀ k, e ∉ xs k) :
    (front ++ e :: b :: rest).Nodup ∧ (u.queues q).nelems + 1 = (front ++ e :: b :: rest).length ∧
      ∀ k, k ≠ q → ∀ c ∈ xs k, c ≠ e ∧ c ≠ b ∧ c ∉ front ++ e :: b :: rest := by
  have distinct := lined.distinct q
  have absent := new q
  rw [row] at distinct absent
  refine ⟨?_, ?_, fun k other c member => ?_⟩
  · rw [List.nodup_middle]
    exact List.nodup_cons.mpr ⟨absent, distinct⟩
  · simp only [lined.count q, row, List.length_append, List.length_cons]
    omega
  · have unlike : c ≠ e := fun same => new k (same ▸ member)
    have outside := lined.apart k q other c member
    rw [row] at outside
    simp only [List.mem_append, List.mem_cons, not_or] at outside ⊢
    exact ⟨unlike, outside.2.1, outside.1, unlike, outside.2⟩

/-- The links back where `e` has come in front of `b`. -/
theorem backward_inserted {w : Addr → Option Ptr} {tail r : Ptr} (distinct : (front ++ e :: b :: rest).Nodup)
    (last : Strand w tail rest.reverse (some b)) (before : Strand w r front.reverse none) :
    Strand (Function.update (Function.update w e (some r)) b (some (some e))) tail
      (front ++ e :: b :: rest).reverse none := by
  have parts := List.nodup_append.mp distinct
  have outer := (List.nodup_cons.mp parts.2.1).1
  have after := (List.nodup_cons.mp (List.nodup_cons.mp parts.2.1).2).1
  have inner : e ∉ front := fun inner => parts.2.2 e inner e (by simp) rfl
  have unlike : b ∉ front := fun inner => parts.2.2 b inner b (by simp) rfl
  have apart : e ≠ b := fun same => outer (by simp [same])
  simp only [List.reverse_append, List.reverse_cons, List.append_assoc, List.singleton_append]
  have before' := (before.update (fun member => inner (List.mem_reverse.mp member)) (some r)).update
    (fun member => unlike (List.mem_reverse.mp member)) (some (some e))
  have last' := (last.update (fun member => outer (List.mem_cons_of_mem b (List.mem_reverse.mp member))) (some r)).update
    (fun member => after (List.mem_reverse.mp member)) (some (some e))
  refine strand_append.mpr ⟨some b, last', rfl, some e, Function.update_self _ _ _, rfl, r, ?_, before'⟩
  rw [Function.update_of_ne apart, Function.update_self]

/-- An entry comes into a row. -/
def Enters (q : Nat) (b e : Addr) (u : DtView) (xs : Rows) (stale : Nat → Ptr) (ys : List Addr) : Prop :=
  ∃ v, DtLeads (dtqueueInsertBefore q (some b) (some e)) u v ∧
    Lined v (Function.update xs q ys) (Function.update stale q none)

theorem Lined.insert_first (lined : Lined u xs stale) (row : xs q = b :: rest) (clean : stale q = none)
    (forth : u.forth e = some f) (back : u.back e = some p) (new : ∀ k, e ∉ xs k) :
    Enters q b e u xs stale (e :: b :: rest) := by
  have row' : xs q = [] ++ b :: rest := row
  rcases lined.around row' with ⟨next, ⟨r, prev, before⟩, first, behind, last⟩
  rcases lined.with_one row' new with ⟨longer, count, gone⟩
  rw [clean] at before
  have backward := backward_inserted longer last before
  obtain rfl : r = none := before
  have outer : e ∉ b :: rest := (List.nodup_cons.mp longer).1
  have apart : b ≠ e := fun same => outer (by simp [same])
  refine ⟨_, dtLeads_insert_head next prev forth back apart, ?_⟩
  apply lined.change q rfl ?_ backward count longer fun _ => rfl
  · intro k other c member
    rcases gone k other c member with ⟨notNew, notNext, outside⟩
    refine ⟨Function.update_of_ne notNew _ _, ?_, outside⟩
    exact (Function.update_of_ne notNext _ _).trans (Function.update_of_ne notNew _ _)
  · refine ⟨rfl, some b, Function.update_self _ _ _, rfl, rest.head?, ?_, ?_⟩
    · exact (Function.update_of_ne apart _ _).trans next
    · exact behind.update (fun inner => outer (List.mem_cons_of_mem b inner)) _

theorem Lined.insert_between (lined : Lined u xs stale) (row : xs q = front ++ [a] ++ b :: rest) (clean : stale q = none)
    (forth : u.forth e = some f) (back : u.back e = some p) (new : ∀ k, e ∉ xs k) :
    Enters q b e u xs stale (front ++ [a] ++ e :: b :: rest) := by
  rcases lined.around row with ⟨next, ⟨r, prev, before⟩, first, behind, last⟩
  rcases lined.with_one row new with ⟨longer, count, gone⟩
  rw [clean] at before
  have backward := backward_inserted longer last before
  rw [List.reverse_append] at before
  obtain rfl : r = some a := before.first
  have left : ∃ f, u.forth a = some f := (lined.known (q := q) (by simp [row])).1
  rcases left with ⟨g, left⟩
  have parts := List.nodup_append.mp longer
  have outer : e ∉ b :: rest := (List.nodup_cons.mp parts.2.1).1
  have inner : e ∉ front ++ [a] := fun inner => parts.2.2 e inner e (by simp) rfl
  have apart : b ≠ e := fun same => outer (by simp [same])
  have different : a ≠ e := fun same => inner (by simp [same])
  have notLeft : b ≠ a := fun same => parts.2.2 a (by simp) b (by simp) same.symm
  have outside : a ∉ front := fun inner => (List.nodup_append.mp parts.1).2.2 a inner a (by simp) rfl
  refine ⟨_, dtLeads_insert next prev forth back left apart different, ?_⟩
  apply lined.change q rfl ?_ backward count longer fun _ => rfl
  · intro k other c member
    rcases gone k other c member with ⟨notNew, notNext, gone⟩
    have unlike : c ≠ a := fun same => gone (by simp [same])
    refine ⟨?_, ?_, gone⟩
    · exact (Function.update_of_ne notNew _ _).trans (Function.update_of_ne unlike _ _)
    · exact (Function.update_of_ne notNext _ _).trans (Function.update_of_ne notNew _ _)
  · have notAfter : a ∉ rest := fun inner => parts.2.2 a (by simp) a (by simp [inner]) rfl
    have behind' := (behind.update notAfter (some (some e))).update
      (fun inner => outer (List.mem_cons_of_mem b inner)) (some (some b))
    refine strand_append.mpr ⟨some e, (first.redirect outside (some e)).update inner _, rfl, some b,
      Function.update_self _ _ _, rfl, rest.head?, ?_, behind'⟩
    exact (Function.update_of_ne apart _ _).trans ((Function.update_of_ne notLeft _ _).trans next)

/-- An entry is put into a row in front of another one. -/
theorem Lined.insertBefore (lined : Lined u xs stale) (row : xs q = front ++ b :: rest) (clean : stale q = none)
    (forth : u.forth e = some f) (back : u.back e = some p) (new : ∀ k, e ∉ xs k) :
    ∃ v, DtLeads (dtqueueInsertBefore q (some b) (some e)) u v ∧
      Lined v (Function.update xs q (front ++ e :: b :: rest)) (Function.update stale q none) := by
  rcases List.eq_nil_or_concat front with rfl | ⟨front, a, rfl⟩
  · exact lined.insert_first row clean forth back new
  · rw [List.concat_eq_append] at row ⊢
    exact lined.insert_between row clean forth back new

end MnCommon.Queues
