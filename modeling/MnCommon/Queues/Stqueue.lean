import MnCommon.Queues.Recycle

/-! Singly linked queues whose entries go from queue to queue. -/

namespace MnCommon.Queues

open Memory

/-- What the macros see of a store: the queues and the link of each entry. -/
structure StView where
  queues : Nat → Stqueue
  forth : Wiring

def stView (s : StStore) : StView := ⟨s.vars, wiring StqueueEntry.stqNext s.heap⟩

abbrev StLeads : StProg Unit → StView → StView → Prop := Leads stView

/-- Each queue links its row. -/
structure StLined (u : StView) (xs : Rows) : Prop extends Separate xs where
  forward : ∀ q, Strand u.forth (u.queues q).stqHead (xs q) none
  tail : ∀ q, (u.queues q).stqTail = (xs q).getLast?

/-- Entries are put in when they are in no queue, whatever their links are. -/
def StOp.Recycles (s : StStore × Rows) : StOp → Prop
  | .enqueue _ e => e ∈ s.1.heap ∧ Unqueued s.2 e
  | .dequeue _ => True

/-- The call returns and leaves every queue with its row. -/
def StOp.Right (s : StStore × Rows) (op : StOp) : Prop :=
  ∃ next, stStep op s = .ok ((), next) ∧
    ∀ q, Follows StqueueEntry.stqNext next.1.heap (next.1.vars q).stqHead (next.1.vars q).stqTail (next.2 q)

/-- An entry that is put into an empty queue has no next one. -/
def StOp.Clean (s : StStore × Rows) : StOp → Prop
  | .enqueue q e => s.2 q = [] → (s.1.heap.lookup e).map StqueueEntry.stqNext = some none
  | .dequeue _ => True

variable {s : StStore} {u v : StView} {next : StStore × Rows} {xs : Rows} {q : Nat} {a b e t : Addr} {p r : Ptr}
  {op : StOp} {front ys : List Addr} {queue : Stqueue}

theorem stLeads_queue {k : Stqueue → StProg Unit} (rest : StLeads (k (u.queues q)) u v) :
    StLeads (stqueue q >>= k) u v := by
  refine Leads.reads (fun s same => ?_) rest
  subst same
  rfl

theorem stLeads_load {k : StqueueEntry → StProg Unit} (forth : u.forth a = some p) (rest : StLeads (k ⟨p⟩) u v) :
    StLeads (load (some a) >>= k) u v := by
  refine Leads.reads (fun s same => ?_) rest
  subst same
  rcases lookup_of_wiring forth with ⟨n, cell, rfl⟩
  exact load_ok cell

theorem stLeads_set (u : StView) (q : Nat) (f : Stqueue → Stqueue) :
    StLeads (setStqueue q f) u { u with queues := Function.update u.queues q (f (u.queues q)) } := by
  intro s same
  subst same
  exact ⟨_, rfl, rfl⟩

theorem stLeads_next (known : u.forth a = some p) (target : Ptr) :
    StLeads (setStqNext (some a) target) u { u with forth := Function.update u.forth a (some target) } := by
  intro s same
  subst same
  rcases lookup_of_wiring known with ⟨n, cell, -⟩
  refine ⟨_, update_ok _ cell, ?_⟩
  simp only [stView, wiring_insert]

theorem stLeads_enqueue_empty (empty : (u.queues q).stqTail = none) (entry : Ptr) :
    StLeads (stqueueEnqueue q entry) u
      { u with queues := Function.update u.queues q ⟨entry, entry, (u.queues q).nelems + 1⟩ } := by
  apply stLeads_queue
  rw [if_pos empty]
  apply (stLeads_set u q _).seq
  convert stLeads_set _ q _ using 2
  simp

theorem stLeads_enqueue (tail : (u.queues q).stqTail = some t) (last : u.forth t = some p) (forth : u.forth e = some r)
    (apart : e ≠ t) :
    StLeads (stqueueEnqueue q (some e)) u
      { queues := Function.update u.queues q ⟨(u.queues q).stqHead, some e, (u.queues q).nelems + 1⟩
        forth := Function.update (Function.update u.forth t (some (some e))) e (some none) } := by
  apply stLeads_queue
  have filled : ¬(u.queues q).stqTail = none := by simp [tail]
  rw [if_neg filled, tail]
  apply (stLeads_next last (some e)).seq
  have known : Function.update u.forth t (some (some e)) e = some r := by rw [Function.update_of_ne apart, forth]
  apply (stLeads_next (by exact known) none).seq
  apply (stLeads_set _ q _).seq
  convert stLeads_set _ q _ using 2
  simp

theorem stLeads_dequeue_empty (empty : (u.queues q).stqHead = none) :
    StLeads (stqueueDequeue q) u
      { u with queues := Function.update u.queues q { u.queues q with stqTail := none } } := by
  apply stLeads_queue
  rw [if_neg (not_not.mpr empty)]
  exact stLeads_set u q _

theorem stLeads_dequeue (head : (u.queues q).stqHead = some a) (forth : u.forth a = some p) :
    StLeads (stqueueDequeue q) u
      { u with
        queues := Function.update u.queues q
          ⟨p, if p = none then none else (u.queues q).stqTail, (u.queues q).nelems - 1⟩ } := by
  apply stLeads_queue
  rw [if_pos (by simp [head]), head]
  apply stLeads_load forth
  apply (stLeads_set u q _).seq
  cases p with
  | none =>
      apply (stLeads_set _ q _).seq
      convert stLeads_set _ q _ using 2
      simp
  | some b =>
      have counted := stLeads_set
        { u with queues := Function.update u.queues q ⟨some b, (u.queues q).stqTail, (u.queues q).nelems⟩ } q
        fun v => { v with nelems := v.nelems - 1 }
      simpa using counted

theorem StLined.change (lined : StLined u xs) (q : Nat) (queues : v.queues = Function.update u.queues q queue)
    (forward : Strand v.forth queue.stqHead ys none) (tail : queue.stqTail = ys.getLast?) (distinct : ys.Nodup)
    (others : ∀ k, k ≠ q → ∀ a ∈ xs k, v.forth a = u.forth a ∧ a ∉ ys) :
    StLined v (Function.update xs q ys) := by
  have queue_self : v.queues q = queue := by rw [queues, Function.update_self]
  have queue_other : ∀ k, k ≠ q → v.queues k = u.queues k := by
    intro k other
    rw [queues, Function.update_of_ne other]
  have rows := lined.update distinct fun k other a inside => (others k other a inside).2
  refine ⟨rows, fun k => ?_, fun k => ?_⟩
  · by_cases here : k = q
    · subst here
      rwa [queue_self, Function.update_self]
    · rw [queue_other k here, Function.update_of_ne here]
      exact (lined.forward k).frame fun a inside => (others k here a inside).1
  · by_cases here : k = q
    · subst here
      rwa [queue_self, Function.update_self]
    · rw [queue_other k here, Function.update_of_ne here]
      exact lined.tail k

theorem StLined.known (lined : StLined u xs) (inside : a ∈ xs q) : ∃ p, u.forth a = some p :=
  (lined.forward q).known inside

theorem StLined.follows (lined : StLined (stView s) xs) (q : Nat) :
    Follows StqueueEntry.stqNext s.heap (s.vars q).stqHead (s.vars q).stqTail (xs q) :=
  ⟨fun _ enough => (lined.forward q).walk enough, lined.tail q⟩

theorem StLined.enqueue_empty (lined : StLined u xs) (empty : xs q = []) (forth : u.forth e = some none)
    (new : Unqueued xs e) :
    ∃ v, StLeads (stqueueEnqueue q (some e)) u v ∧ StLined v (Function.update xs q (xs q ++ [e])) := by
  have tail : (u.queues q).stqTail = none := by rw [lined.tail q, empty, List.getLast?_nil]
  refine ⟨_, stLeads_enqueue_empty tail (some e), ?_⟩
  rw [empty, List.nil_append]
  apply lined.change q rfl
  · exact strand_singleton.mpr ⟨rfl, forth⟩
  · rfl
  · exact List.nodup_singleton e
  · intro k _ a inside
    exact ⟨rfl, fun same => new k (List.mem_singleton.mp same ▸ inside)⟩

theorem StLined.enqueue (lined : StLined u xs) (row : xs q = front ++ [t]) (forth : u.forth e = some p)
    (new : Unqueued xs e) :
    ∃ v, StLeads (stqueueEnqueue q (some e)) u v ∧ StLined v (Function.update xs q (xs q ++ [e])) := by
  have tail : (u.queues q).stqTail = some t := by rw [lined.tail q, row, List.getLast?_concat]
  have inside : t ∈ xs q := by simp [row]
  have apart : e ≠ t := fun same => new q (same ▸ inside)
  rcases lined.known inside with ⟨r, last⟩
  refine ⟨_, stLeads_enqueue tail last forth apart, ?_⟩
  have forward := lined.forward q
  have distinct := lined.distinct q
  rw [row] at forward distinct
  have outside : t ∉ front := fun inner => (List.nodup_append.mp distinct).2.2 t inner t (by simp) rfl
  have outer : e ∉ front ++ [t] := row ▸ new q
  apply lined.change q rfl
  · rw [row]
    refine strand_append.mpr ⟨some e, (forward.redirect outside (some e)).update outer _, ?_⟩
    exact strand_singleton.mpr ⟨rfl, Function.update_self _ _ _⟩
  · rw [List.getLast?_concat]
  · rw [row]
    refine List.nodup_append.mpr ⟨distinct, List.nodup_singleton e, fun a member b single => ?_⟩
    rintro rfl
    exact outer (List.mem_singleton.mp single ▸ member)
  · intro k other a member
    have unlike : a ≠ e := fun same => new k (same ▸ member)
    have unlike' : a ≠ t := fun same => lined.apart k q other a member (same ▸ inside)
    refine ⟨(Function.update_of_ne unlike _ _).trans (Function.update_of_ne unlike' _ _), fun inner => ?_⟩
    rcases List.mem_append.mp inner with old | single
    · exact lined.apart k q other a member old
    · exact unlike (List.mem_singleton.mp single)

theorem StLined.dequeue (lined : StLined u xs) (q : Nat) :
    ∃ v, StLeads (stqueueDequeue q) u v ∧ StLined v (Function.update xs q (xs q).tail) := by
  have forward := lined.forward q
  cases row : xs q with
  | nil =>
      rw [row] at forward
      refine ⟨_, stLeads_dequeue_empty forward.head, ?_⟩
      apply lined.change q rfl
      · exact forward.head
      · rfl
      · exact List.nodup_nil
      · exact fun k _ a _ => ⟨rfl, List.not_mem_nil⟩
  | cons a rest =>
      rw [row] at forward
      rcases forward with ⟨head, p, forth, behind⟩
      have distinct := lined.distinct q
      rw [row] at distinct
      refine ⟨_, stLeads_dequeue head forth, ?_⟩
      rw [List.tail_cons]
      apply lined.change q rfl behind
      · rw [behind.head]
        cases rest with
        | nil => rfl
        | cons b rest =>
            have tail := lined.tail q
            rw [row, List.getLast?_cons_cons] at tail
            simpa using tail
      · exact (List.nodup_cons.mp distinct).2
      · intro k other c member
        refine ⟨rfl, fun inner => lined.apart k q other c member ?_⟩
        rw [row]
        exact List.mem_cons_of_mem a inner

theorem stStep_of_leads (post : StView → Prop) (leads : ∃ v, StLeads op.prog (stView s) v ∧ post v) :
    ∃ next, stStep op (s, xs) = .ok ((), next, op.spec xs) ∧ post (stView next) := by
  rcases leads with ⟨v, leads, holds⟩
  rcases leads s rfl with ⟨next, ran, rfl⟩
  refine ⟨next, ?_, holds⟩
  rw [stStep, ran]
  rfl

theorem StLined.recycle (lined : StLined (stView s) xs) (recycles : op.Recycles (s, xs)) (clean : op.Clean (s, xs)) :
    ∃ next, stStep op (s, xs) = .ok ((), next, op.spec xs) ∧ StLined (stView next) (op.spec xs) := by
  apply stStep_of_leads fun v => StLined v (op.spec xs)
  cases op with
  | enqueue q e =>
      rcases recycles with ⟨live, new⟩
      rcases Finmap.mem_iff.mp live with ⟨n, cell⟩
      rcases List.eq_nil_or_concat (xs q) with empty | ⟨front, t, row⟩
      · exact lined.enqueue_empty empty (clean empty) new
      · rw [List.concat_eq_append] at row
        exact lined.enqueue row (wiring_of_lookup cell) new
  | dequeue q => exact lined.dequeue q

theorem of_stStep (stepped : stStep op (s, xs) = .ok ((), next)) :
    op.prog s = .ok ((), next.1) ∧ next.2 = op.spec xs := by
  rw [stStep] at stepped
  cases ran : op.prog s with
  | error fault =>
      rw [ran] at stepped
      cases stepped
  | ok result =>
      rw [ran] at stepped
      cases stepped
      exact ⟨rfl, rfl⟩

theorem StLined.clean_of_right (lined : StLined (stView s) xs) (recycles : op.Recycles (s, xs))
    (right : op.Right (s, xs)) : op.Clean (s, xs) := by
  rcases right with ⟨next, stepped, follows⟩
  rcases of_stStep stepped with ⟨ran, rows⟩
  cases op with
  | dequeue q => trivial
  | enqueue q e =>
      intro empty
      have empty : xs q = [] := empty
      have tail : (s.vars q).stqTail = none := (lined.tail q).trans (by rw [empty, List.getLast?_nil])
      rcases Finmap.mem_iff.mp recycles.1 with ⟨n, cell⟩
      rcases stLeads_enqueue_empty tail (some e) s rfl with ⟨next', ran', seen⟩
      cases ran.symm.trans ran'
      have head : (next.1.vars q).stqHead = some e := by
        have queue := congrArg (fun v => (v.queues q).stqHead) seen
        simpa [stView] using queue
      have kept : wiring StqueueEntry.stqNext next.1.heap e = some n.stqNext := by
        have links := congrArg (fun v => v.forth e) seen
        exact links.trans (wiring_of_lookup cell)
      rcases lookup_of_wiring kept with ⟨m, cell', same⟩
      have row : next.2 q = [e] := by
        rw [rows, StOp.spec, Function.update_self, empty, List.nil_append]
      have walk := (follows q).1 2 (by simp [row])
      rw [head, row] at walk
      change (s.heap.lookup e).map StqueueEntry.stqNext = some none
      rw [cell, Option.map_some, ← same, link_of_walk cell' walk]

/-- A run of recycled entries keeps every row exactly when each call is clean. -/
theorem stqueue_right_iff (ops : List StOp) (s : StStore) (fresh : ∀ q, s.vars q = Stqueue.init)
    (recycles : Along stStep (fun op s => op.Recycles s) ops (s, fun _ => [])) :
    Along stStep (fun op s => op.Right s) ops (s, fun _ => []) ↔
      Along stStep (fun op s => op.Clean s) ops (s, fun _ => []) := by
  have locally : ∀ (op : StOp) (s : StStore × Rows), op.Recycles s → StLined (stView s.1) s.2 →
      (op.Clean s ↔ op.Right s) := by
    intro op s recycles lined
    refine ⟨fun clean => ?_, fun right => lined.clean_of_right recycles right⟩
    rcases lined.recycle recycles clean with ⟨next, stepped, kept⟩
    exact ⟨_, stepped, fun q => kept.follows q⟩
  have keeps : ∀ (op : StOp) (s : StStore × Rows) answer next, op.Recycles s → StLined (stView s.1) s.2 →
      op.Clean s → stStep op s = .ok (answer, next) → StLined (stView next.1) next.2 := by
    intro op s answer next recycles lined clean stepped
    rcases lined.recycle recycles clean with ⟨next', stepped', kept⟩
    cases stepped.symm.trans stepped'
    exact kept
  have first : StLined (stView s) fun _ => [] := by
    have queues : ∀ q, (stView s).queues q = Stqueue.init := fresh
    refine ⟨⟨fun _ => List.nodup_nil, fun _ _ _ _ => nofun⟩, fun q => ?_, fun q => ?_⟩
    · rw [queues q]
      rfl
    · rw [queues q]
      rfl
  exact (along_iff_within locally keeps first recycles).symm

/-- Entries of both kinds of queue keep every row exactly when each call is clean. -/
theorem recycled_right_iff (ops : List DtOp) (s : DtStore) (empty : ∀ q, s.vars q = Dtqueue.init)
    (recycles : Along dtStep (fun op s => op.Recycles s) ops (s, fun _ => [])) (stOps : List StOp) (t : StStore)
    (stEmpty : ∀ q, t.vars q = Stqueue.init)
    (stRecycles : Along stStep (fun op s => op.Recycles s) stOps (t, fun _ => [])) :
    (Along dtStep (fun op s => op.Right s) ops (s, fun _ => []) ↔
        Along dtStep (fun op s => op.Clean s) ops (s, fun _ => [])) ∧
      (Along stStep (fun op s => op.Right s) stOps (t, fun _ => []) ↔
        Along stStep (fun op s => op.Clean s) stOps (t, fun _ => [])) :=
  ⟨dtqueue_right_iff ops s empty recycles, stqueue_right_iff stOps t stEmpty stRecycles⟩

/-- Two cleared entries and queues that are all empty. -/
def samplePair : StStore where
  heap := (Finmap.singleton 1 ⟨none⟩).insert 2 ⟨none⟩
  vars _ := Stqueue.init
  tick := 0

def strayCalls : List DtOp := [.enqueue 0 1, .enqueue 0 2, .dequeue 0]

def strayStCalls : List StOp := [.enqueue 0 1, .enqueue 0 2, .dequeue 0]

theorem strayCalls_recycle :
    Along dtStep (fun op s => op.Recycles s) (strayCalls ++ [.enqueue 1 1]) (sampleEntries, fun _ => []) := by
  apply Along.of_step rfl ⟨by decide, unqueued_nil 1⟩
  apply Along.of_step rfl ⟨by decide, (unqueued_nil 2).update (by decide)⟩
  apply Along.of_step rfl trivial
  refine Along.of_step rfl ⟨by decide, fun q => ?_⟩ trivial
  cases q with
  | zero => decide
  | succ q => exact List.not_mem_nil

theorem strayStCalls_recycle :
    Along stStep (fun op s => op.Recycles s) (strayStCalls ++ [.enqueue 1 1]) (samplePair, fun _ => []) := by
  apply Along.of_step rfl ⟨by decide, unqueued_nil 1⟩
  apply Along.of_step rfl ⟨by decide, (unqueued_nil 2).update (by decide)⟩
  apply Along.of_step rfl trivial
  refine Along.of_step rfl ⟨by decide, fun q => ?_⟩ trivial
  cases q with
  | zero => decide
  | succ q => exact List.not_mem_nil

/-- An entry that was dequeued in front of another one leads from an empty queue
to that one. -/
theorem strayCalls_wrong :
    (Along dtStep (fun op s => op.Recycles s) (strayCalls ++ [.enqueue 1 1]) (sampleEntries, fun _ => []) ∧
        ¬ Along dtStep (fun op s => op.Right s) (strayCalls ++ [.enqueue 1 1]) (sampleEntries, fun _ => [])) ∧
      Along stStep (fun op s => op.Recycles s) (strayStCalls ++ [.enqueue 1 1]) (samplePair, fun _ => []) ∧
        ¬ Along stStep (fun op s => op.Right s) (strayStCalls ++ [.enqueue 1 1]) (samplePair, fun _ => []) := by
  refine ⟨⟨strayCalls_recycle, fun right => ?_⟩, strayStCalls_recycle, fun right => ?_⟩
  · rcases right.last rfl with ⟨next, stepped, follows⟩
    cases stepped
    have walk := (follows 1).1 2 (by decide)
    exact absurd walk (by decide)
  · rcases right.last rfl with ⟨next, stepped, follows⟩
    cases stepped
    have walk := (follows 1).1 2 (by decide)
    exact absurd walk (by decide)

theorem soleCalls_right :
    Along dtStep (fun op s => op.Right s) [.enqueue 0 1, .dequeue 0, .enqueue 1 1] (sampleEntries, fun _ => []) ∧
      Along stStep (fun op s => op.Right s) [.enqueue 0 1, .dequeue 0, .enqueue 1 1] (samplePair, fun _ => []) := by
  have both := recycled_right_iff [.enqueue 0 1, .dequeue 0, .enqueue 1 1] sampleEntries (fun _ => rfl) ?_
    [.enqueue 0 1, .dequeue 0, .enqueue 1 1] samplePair (fun _ => rfl) ?_
  · constructor
    · apply both.1.mpr
      apply Along.of_step rfl fun _ => rfl
      apply Along.of_step rfl trivial
      exact Along.of_step rfl (fun _ => rfl) trivial
    · apply both.2.mpr
      apply Along.of_step rfl fun _ => rfl
      apply Along.of_step rfl trivial
      exact Along.of_step rfl (fun _ => rfl) trivial
  · apply Along.of_step rfl ⟨by decide, unqueued_nil 1⟩
    apply Along.of_step rfl trivial
    refine Along.of_step rfl ⟨by decide, fun q => ?_⟩ trivial
    cases q with
    | zero => decide
    | succ q => exact List.not_mem_nil
  · apply Along.of_step rfl ⟨by decide, unqueued_nil 1⟩
    apply Along.of_step rfl trivial
    refine Along.of_step rfl ⟨by decide, fun q => ?_⟩ trivial
    cases q with
    | zero => decide
    | succ q => exact List.not_mem_nil

end MnCommon.Queues
