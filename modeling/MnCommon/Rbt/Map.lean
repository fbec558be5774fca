import MnCommon.Rbt.Remove

/-! Runs of a client: the tree is an ordered map with a threaded list. -/

namespace MnCommon.Rbt

open Memory Trees

inductive Op where
  | nodeInit (node : Addr) (key : UInt64) (data : Ptr)
  | insert (node : Addr)
  | removeNode (node : Addr)
  | removeKey (key : UInt64)
  | find (key : UInt64)
  deriving DecidableEq, Repr

def exec : Op → RbtProg Unit
  | .nodeInit node key data => rbtNodeInit node key data
  | .insert node => do let _ ← rbtInsert (some node)
  | .removeNode node => do let _ ← rbtRemoveNode (some node)
  | .removeKey key => do let _ ← rbtRemoveKey key
  | .find key => do let _ ← rbtFind key

def execAll : List Op → RbtProg Unit
  | [] => pure ()
  | op :: ops => do
      exec op
      execAll ops

/-- What the client knows: the keys its nodes were initialised with and the
nodes that it has inserted and not removed. -/
structure Client where
  keys : Addr → Option UInt64
  live : Finset Addr

def Client.fresh : Client := ⟨fun _ => none, ∅⟩

def Client.step (c : Client) : Op → Client
  | .nodeInit node key _ => { c with keys := Function.update c.keys node (some key) }
  | .insert node =>
      if ∃ other ∈ c.live, c.keys other = c.keys node then c
      else { c with live := insert node c.live }
  | .removeNode node => { c with live := c.live.erase node }
  | .removeKey key => { c with live := c.live.filter fun node => c.keys node ≠ some key }
  | .find _ => c

def Client.run (c : Client) (ops : List Op) : Client := ops.foldl Client.step c

/-- A node is initialised or inserted only while it is in no tree, and removed
only while it is in the tree. -/
def Client.Admits (c : Client) : Op → Prop
  | .nodeInit node _ _ => node ∉ c.live
  | .insert node => node ∉ c.live ∧ (c.keys node).isSome
  | .removeNode node => node ∈ c.live
  | .removeKey _ => True
  | .find _ => True

instance (c : Client) (op : Op) : Decidable (c.Admits op) := by
  cases op <;> unfold Client.Admits <;> infer_instance

def Client.AdmitsAll (c : Client) : List Op → Prop
  | [] => True
  | op :: ops => c.Admits op ∧ (c.step op).AdmitsAll ops

instance Client.decideAdmitsAll (c : Client) : (ops : List Op) → Decidable (c.AdmitsAll ops)
  | [] => inferInstanceAs (Decidable True)
  | op :: ops =>
      have := Client.decideAdmitsAll (c.step op) ops
      inferInstanceAs (Decidable (c.Admits op ∧ (c.step op).AdmitsAll ops))

/-- The tree holds what the client believes it to hold. -/
structure Tracks (s : RbtStore) (t : RbtTree) (c : Client) : Prop where
  valid : Valid s t
  stored : ∀ a key, (a, key) ∈ idents t ↔ a ∈ c.live ∧ c.keys a = some key
  named : ∀ a ∈ c.live, (c.keys a).isSome
  idle : ∀ a key, a ∉ c.live → c.keys a = some key →
    ∃ n, s.heap.lookup a = some n ∧ n.Unlinked ∧ n.key = key

section Steps

variable {s : RbtStore} {t : RbtTree} {c : Client}

theorem find_iff (valid : Valid s t) (key : UInt64) :
    ∃ found, rbtFind key s = .ok (found, s) ∧ ∀ a, found = some a ↔ (a, key) ∈ idents t := by
  refine ⟨_, find_ok key valid.holds, fun a => ?_⟩
  have exact_match := descend_iff (cut_respects key) valid.ordered
  constructor
  · intro found
    cases shape : (descend (Label.cut key) [] t).2 with
    | nil => simp [shape] at found
    | node v l r =>
        rw [shape] at found
        obtain rfl : v.addr = a := Option.some.inj found
        obtain ⟨member, equal⟩ := (exact_match v).mp ⟨l, r, shape⟩
        obtain rfl := (cut_eq key v).mp equal
        exact List.mem_map_of_mem member
  · intro member
    obtain ⟨v, inside, same⟩ := List.mem_map.mp member
    obtain ⟨rfl, rfl⟩ := Prod.mk.inj same
    obtain ⟨l, r, shape⟩ := (exact_match v).mpr ⟨inside, (cut_eq v.key v).mpr rfl⟩
    rw [shape]
    rfl

theorem mem_addrs_iff (t : RbtTree) (a : Addr) :
    a ∈ rbtLayout.addrs t ↔ ∃ key, (a, key) ∈ idents t := by
  rw [addrs_eq, List.mem_map]
  exact ⟨fun ⟨x, member, same⟩ => ⟨x.2, same ▸ member⟩, fun ⟨key, member⟩ => ⟨_, member, rfl⟩⟩

theorem Tracks.mem_addrs (tracks : Tracks s t c) (a : Addr) :
    a ∈ rbtLayout.addrs t ↔ a ∈ c.live := by
  rw [mem_addrs_iff]
  constructor
  · rintro ⟨key, member⟩
    exact ((tracks.stored a key).mp member).1
  · intro live
    obtain ⟨key, same⟩ := Option.isSome_iff_exists.mp (tracks.named a live)
    exact ⟨key, (tracks.stored a key).mpr ⟨live, same⟩⟩

theorem Tracks.count (tracks : Tracks s t c) : s.vars.nelem = c.live.card := by
  have same : (rbtLayout.addrs t).toFinset = c.live := by
    ext a
    rw [List.mem_toFinset, tracks.mem_addrs]
  rw [tracks.valid.nelem_eq, ← same, List.toFinset_card_of_nodup tracks.valid.chain.distinct,
    addrs_eq, List.length_map, idents_length]

/-- An insertion is turned away exactly when a live node has the same key. -/
theorem Tracks.found_iff (tracks : Tracks s t c) {key : UInt64} :
    (∃ w l r, (descend (Label.cut key) [] t).2 = .node w l r) ↔
      ∃ b ∈ c.live, c.keys b = some key := by
  have exact_match := descend_iff (cut_respects key) tracks.valid.ordered
  constructor
  · rintro ⟨w, l, r, shape⟩
    obtain ⟨member, equal⟩ := (exact_match w).mp ⟨l, r, shape⟩
    obtain rfl := (cut_eq key w).mp equal
    exact ⟨w.addr, (tracks.stored w.addr w.key).mp (List.mem_map_of_mem member)⟩
  · rintro ⟨b, live, same⟩
    obtain ⟨w, member, ident⟩ := List.mem_map.mp ((tracks.stored b key).mpr ⟨live, same⟩)
    obtain ⟨rfl, rfl⟩ := Prod.mk.inj ident
    exact ⟨w, (exact_match w).mpr ⟨member, (cut_eq w.key w).mpr rfl⟩⟩

theorem reject_ok (tracks : Tracks s t c) {a : Addr} (idle : c.Admits (.insert a))
    (taken : ∃ b ∈ c.live, c.keys b = c.keys a) :
    ∃ b ∈ c.live, c.keys b = c.keys a ∧ rbtInsert (some a) s = .ok ((0, some b), s) := by
  obtain ⟨key, same⟩ := Option.isSome_iff_exists.mp idle.2
  obtain ⟨n, cell, -, rfl⟩ := tracks.idle a key idle.1 same
  rw [same] at taken ⊢
  obtain ⟨w, l, r, shape⟩ := tracks.found_iff.mpr taken
  have exact_match := descend_iff (cut_respects n.key) tracks.valid.ordered
  obtain ⟨member, equal⟩ := (exact_match w).mp ⟨l, r, shape⟩
  have key_eq := (cut_eq n.key w).mp equal
  obtain ⟨live, known⟩ := (tracks.stored w.addr w.key).mp (List.mem_map_of_mem member)
  exact ⟨w.addr, live, known.trans (congrArg some key_eq.symm), insert_found_ok tracks.valid cell shape⟩

theorem Valid.outside {next : RbtStore} (valid : Valid s t)
    (same : ∀ b ∈ rbtLayout.addrs t, next.heap.lookup b = s.heap.lookup b)
    (vars : next.vars = s.vars) : Valid next t := by
  refine ⟨⟨valid.holds.represents.frame same, ?_⟩, valid.ordered, ?_, ?_⟩
  · rw [vars, valid.holds.root_eq]
  · rw [vars]
    refine valid.chain.frame (fun b member => ?_)
    rw [Links.pair, Links.pair, same b member]
  · rw [vars, valid.nelem_eq]

theorem node_init_step (tracks : Tracks s t c) (a : Addr) (key : UInt64) (data : Ptr)
    (outside : a ∉ c.live) :
    ∃ next, rbtNodeInit a key data s = .ok ((), next) ∧
      Tracks next t (c.step (.nodeInit a key data)) := by
  have apart : ∀ b ∈ c.live, b ≠ a := fun b live same => outside (same ▸ live)
  have kept : ∀ b, b ≠ a → (c.step (.nodeInit a key data)).keys b = c.keys b :=
    fun b other => Function.update_of_ne other _ _
  refine ⟨_, rfl, tracks.valid.outside ?_ rfl, ?_, ?_, ?_⟩
  · intro b member
    exact Finmap.lookup_insert_of_ne _ (apart b ((tracks.mem_addrs b).mp member))
  · intro b other
    rw [tracks.stored]
    refine and_congr_right fun live => ?_
    rw [kept b (apart b live)]
  · intro b live
    rw [kept b (apart b live)]
    exact tracks.named b live
  · intro b other idle known
    by_cases here : b = a
    · subst here
      have named : (c.step (.nodeInit b key data)).keys b = some key := Function.update_self _ _ _
      exact ⟨_, Finmap.lookup_insert _, ⟨rfl, rfl, rfl, rfl, rfl⟩,
        Option.some.inj (named.symm.trans known)⟩
    · rw [kept b here] at known
      obtain ⟨n, cell, found⟩ := tracks.idle b other idle known
      exact ⟨n, (Finmap.lookup_insert_of_ne _ here).trans cell, found⟩

theorem insert_step (tracks : Tracks s t c) (a : Addr) (idle : c.Admits (.insert a)) :
    ∃ answer next u, rbtInsert (some a) s = .ok (answer, next) ∧
      Tracks next u (c.step (.insert a)) := by
  rw [Client.step]
  by_cases taken : ∃ b ∈ c.live, c.keys b = c.keys a
  · obtain ⟨b, -, -, run⟩ := reject_ok tracks idle taken
    rw [if_pos taken]
    exact ⟨_, s, t, run, tracks⟩
  rw [if_neg taken]
  obtain ⟨key, same⟩ := Option.isSome_iff_exists.mp idle.2
  obtain ⟨n, cell, unlinked, rfl⟩ := tracks.idle a key idle.1 same
  rw [same] at taken
  have absent : (descend (Label.cut n.key) [] t).2 = .nil := by
    cases shape : (descend (Label.cut n.key) [] t).2 with
    | nil => rfl
    | node w l r => exact absurd (tracks.found_iff.mp ⟨w, l, r, shape⟩) taken
  have outside : a ∉ rbtLayout.addrs t := fun member => idle.1 ((tracks.mem_addrs a).mp member)
  obtain ⟨res, next, run, -, valid, idents_eq, others⟩ :=
    insert_new_ok tracks.valid cell unlinked outside absent
  have whole := plug_descend (Label.cut n.key) [] t
  rw [absent, plug_nil] at whole
  have member_iff : ∀ x, x ∈ idents (fixInsert (descend (Label.cut n.key) [] t).1 (leaf a n.key)) ↔
      x = (a, n.key) ∨ x ∈ idents t := by
    intro x
    rw [idents_eq, ← whole, idents, idents, inorder_plug, inorder_plug, whole]
    simp only [leaf, inorder_node, inorder_nil, List.map_append, List.mem_append, List.nil_append,
      List.map_cons, List.map_nil, List.mem_cons, List.not_mem_nil, or_false, Label.ident]
    tauto
  refine ⟨_, next, _, run, valid, ?_, ?_, ?_⟩
  · intro b key
    rw [member_iff, tracks.stored, Finset.mem_insert]
    by_cases here : b = a
    · subst here
      simp only [Prod.mk.injEq, true_and, idle.1, false_and, or_false, same, Option.some.injEq]
      exact eq_comm
    · simp [here]
  · intro b live
    rcases Finset.mem_insert.mp live with rfl | live
    · exact idle.2
    · exact tracks.named b live
  · intro b key dormant known
    rw [Finset.mem_insert, not_or] at dormant
    obtain ⟨m, found, rest⟩ := tracks.idle b key dormant.2 known
    have apart : b ∉ rbtLayout.addrs t := fun member => dormant.2 ((tracks.mem_addrs b).mp member)
    exact ⟨m, (others b apart dormant.1).trans found, rest⟩

theorem remove_step (tracks : Tracks s t c) (a : Addr) (live : a ∈ c.live) :
    ∃ next u, rbtRemoveNode (some a) s = .ok (0, next) ∧ Tracks next u (c.step (.removeNode a)) := by
  obtain ⟨key, known⟩ := Option.isSome_iff_exists.mp (tracks.named a live)
  obtain ⟨v, member, ident⟩ := List.mem_map.mp ((tracks.stored a key).mpr ⟨live, known⟩)
  obtain ⟨rfl, rfl⟩ := Prod.mk.inj ident
  obtain ⟨path, l, r, rfl⟩ := (mem_inorder_iff v t).mp member
  obtain ⟨next, run, valid, ⟨front, back, whole, rest⟩, ⟨m, cell, unlinked, kept⟩, others⟩ :=
    remove_node_ok tracks.valid
  have distinct := tracks.valid.chain.distinct
  rw [addrs_eq, whole] at distinct
  simp only [List.map_append, List.map_cons, List.nodup_middle, List.nodup_cons, List.mem_append,
    not_or, Label.ident] at distinct
  have stored := tracks.stored
  rw [whole] at stored
  refine ⟨next, _, run, valid, ?_, ?_, ?_⟩
  · intro b key
    rw [rest, Client.step, Finset.mem_erase, and_assoc, ← stored]
    simp only [List.mem_append, List.mem_cons]
    constructor
    · intro inside
      refine ⟨?_, by tauto⟩
      rintro rfl
      rcases inside with inside | inside
      · exact distinct.1.1 (List.mem_map_of_mem inside)
      · exact distinct.1.2 (List.mem_map_of_mem inside)
    · rintro ⟨other, inside⟩
      have apart : (b, key) ≠ v.ident := fun same => other (congrArg Prod.fst same)
      tauto
  · intro b inside
    exact tracks.named b (Finset.mem_erase.mp inside).2
  · intro b key dormant inside
    by_cases here : b = v.addr
    · subst here
      exact ⟨m, cell, unlinked, kept.trans (Option.some.inj (known.symm.trans inside))⟩
    · have idle : b ∉ c.live := fun still => dormant (Finset.mem_erase.mpr ⟨here, still⟩)
      obtain ⟨n, found, same⟩ := tracks.idle b key idle inside
      have apart : b ∉ rbtLayout.addrs (plug path (.node v l r)) :=
        fun member => idle ((tracks.mem_addrs b).mp member)
      exact ⟨n, (others b apart).trans found, same⟩

theorem remove_key_step (tracks : Tracks s t c) (key : UInt64) :
    ∃ res next u, rbtRemoveKey key s = .ok (res, next) ∧ Tracks next u (c.step (.removeKey key)) := by
  obtain ⟨found, run, found_iff⟩ := find_iff tracks.valid key
  rw [rbtRemoveKey, bind_ok run]
  cases found with
  | none =>
      refine ⟨1, s, t, rfl, ?_⟩
      have unchanged : c.live.filter (fun node => c.keys node ≠ some key) = c.live := by
        refine Finset.filter_true_of_mem (fun b live same => ?_)
        have found := (found_iff b).mpr ((tracks.stored b key).mpr ⟨live, same⟩)
        cases found
      rw [Client.step, unchanged]
      exact tracks
  | some a =>
      obtain ⟨live, known⟩ := (tracks.stored a key).mp ((found_iff a).mp rfl)
      obtain ⟨next, u, removed, tracks'⟩ := remove_step tracks a live
      have only : c.live.filter (fun node => c.keys node ≠ some key) = c.live.erase a := by
        ext b
        rw [Finset.mem_filter, Finset.mem_erase, and_comm]
        refine and_congr_left fun inside => not_congr ?_
        constructor
        · intro same
          have found := (found_iff b).mpr ((tracks.stored b key).mpr ⟨inside, same⟩)
          exact (Option.some.inj found).symm
        · rintro rfl
          exact known
      rw [Client.step, only]
      exact ⟨0, next, u, removed, tracks'⟩

theorem exec_step (tracks : Tracks s t c) (op : Op) (admitted : c.Admits op) :
    ∃ next u, exec op s = .ok ((), next) ∧ Tracks next u (c.step op) := by
  cases op with
  | nodeInit node key data =>
      obtain ⟨next, run, tracks⟩ := node_init_step tracks node key data admitted
      exact ⟨next, t, run, tracks⟩
  | insert node =>
      obtain ⟨_, next, u, run, tracks⟩ := insert_step tracks node admitted
      exact ⟨next, u, bind_ok run _, tracks⟩
  | removeNode node =>
      obtain ⟨next, u, run, tracks⟩ := remove_step tracks node admitted
      exact ⟨next, u, bind_ok run _, tracks⟩
  | removeKey key =>
      obtain ⟨_, next, u, run, tracks⟩ := remove_key_step tracks key
      exact ⟨next, u, bind_ok run _, tracks⟩
  | find key =>
      obtain ⟨found, run, -⟩ := find_iff tracks.valid key
      exact ⟨s, t, bind_ok run _, tracks⟩

theorem exec_all_tracks (ops : List Op) (tracks : Tracks s t c) (admitted : c.AdmitsAll ops) :
    ∃ next u, execAll ops s = .ok ((), next) ∧ Tracks next u (c.run ops) := by
  induction ops generalizing s t c with
  | nil => exact ⟨s, t, rfl, tracks⟩
  | cons op ops ih =>
      obtain ⟨middle, u, first, tracks⟩ := exec_step tracks op admitted.1
      obtain ⟨next, w, rest, tracks⟩ := ih tracks admitted.2
      exact ⟨next, w, (bind_ok first _).trans rest, tracks⟩

/-- The first node of the list is in the tree, unless the tree is empty. -/
theorem Tracks.head_cases (tracks : Tracks s t c) :
    (s.vars.head = none ∧ t = .nil) ∨ ∃ a ∈ c.live, s.vars.head = some a := by
  have head := tracks.valid.chain.head_eq
  cases t with
  | nil => exact .inl ⟨head, rfl⟩
  | node v l r =>
      cases shape : rbtLayout.addrs (.node v l r) with
      | nil =>
          have length : (rbtLayout.addrs (.node v l r)).length = (BinaryTree.node v l r).numNodes := by
            rw [addrs_eq, List.length_map, idents_length]
          rw [shape] at length
          cases length
      | cons a rest =>
          rw [shape] at head
          have member : a ∈ rbtLayout.addrs (.node v l r) := by
            rw [shape]
            exact List.mem_cons_self
          exact .inr ⟨a, (tracks.mem_addrs a).mp member, head⟩

theorem fini_from_ok {fuel : Nat} (tracks : Tracks s t c) (enough : c.live.card ≤ fuel) :
    ∃ next, finiFrom fuel s.vars.head s = .ok ((), next) ∧ Tracks next .nil ⟨c.keys, ∅⟩ := by
  induction fuel generalizing s t c with
  | zero =>
      have none : c.live = ∅ := Finset.card_eq_zero.mp (Nat.le_zero.mp enough)
      rcases tracks.head_cases with ⟨head, rfl⟩ | ⟨a, live, -⟩
      · refine ⟨s, by rw [head]; rfl, ?_⟩
        rw [← none]
        exact tracks
      · rw [none] at live
        exact absurd live (Finset.notMem_empty a)
  | succ fuel ih =>
      rcases tracks.head_cases with ⟨head, rfl⟩ | ⟨a, live, head⟩
      · have none : c.live = ∅ := by
          rw [Finset.eq_empty_iff_forall_notMem]
          exact fun a live => absurd ((tracks.mem_addrs a).mpr live) List.not_mem_nil
        refine ⟨s, by rw [head]; rfl, ?_⟩
        rw [← none]
        exact tracks
      · obtain ⟨middle, u, removed, fewer⟩ := remove_step tracks a live
        have less : (c.step (.removeNode a)).live.card ≤ fuel := by
          rw [Client.step, Finset.card_erase_of_mem live]
          omega
        obtain ⟨next, rest, last⟩ := ih fewer less
        exact ⟨next, by rw [head, finiFrom, bind_ok removed]; exact rest, last⟩

/-- All nodes go back to the client. -/
theorem Tracks.fini (tracks : Tracks s t c) :
    ∃ next, rbtFini s = .ok (0, next) ∧ Tracks next .nil ⟨c.keys, ∅⟩ := by
  have enough : c.live.card ≤ s.bound := by
    rw [← tracks.count, tracks.valid.nelem_eq, ← idents_length, ← List.length_map (f := Prod.fst), ← addrs_eq]
    exact tracks.valid.chain.short.trans (Nat.le_succ _)
  obtain ⟨next, run, last⟩ := fini_from_ok tracks enough
  refine ⟨next, ?_, last⟩
  rw [rbtFini, bound_bind]
  change (do finiFrom s.bound s.vars.head; return 0 : RbtProg Int) s = _
  exact bind_ok run _

theorem init_tracks (s : RbtStore) :
    ∃ next, rbtInit s = .ok ((), next) ∧ Tracks next .nil Client.fresh := by
  refine ⟨_, rfl, ⟨⟨Layout.Represents.empty _, rfl⟩, ?_, Links.Chain.empty _, rfl⟩, ?_, ?_, ?_⟩
  · simp [Ordered]
  · simp [idents, Client.fresh]
  · simp [Client.fresh]
  · simp [Client.fresh]

end Steps

/-- A search tree with consistent links, threaded in key order, that answers
for the nodes the client has stored. -/
structure ThreadedMap (s : RbtStore) (t : RbtTree) (c : Client) : Prop where
  tree : Holds s t
  search : SearchTree Label.lt t
  forward : ∀ fuel, t.numNodes ≤ fuel →
    Links.walk MnRbtNode.next s.heap fuel s.vars.head = rbtLayout.addrs t
  backward : ∀ fuel, t.numNodes ≤ fuel →
    Links.walk MnRbtNode.prev s.heap fuel s.vars.tail = (rbtLayout.addrs t).reverse
  count : s.vars.nelem = c.live.card
  found : ∀ key, ∃ found, rbtFind key s = .ok (found, s) ∧
    ∀ a, found = some a ↔ a ∈ c.live ∧ c.keys a = some key
  rejected : ∀ a, c.Admits (.insert a) → (∃ b ∈ c.live, c.keys b = c.keys a) →
    ∃ b ∈ c.live, c.keys b = c.keys a ∧ rbtInsert (some a) s = .ok ((0, some b), s)

theorem Tracks.threadedMap {s : RbtStore} {t : RbtTree} {c : Client} (tracks : Tracks s t c) :
    ThreadedMap s t c := by
  have length : (rbtLayout.addrs t).length = t.numNodes := by
    rw [addrs_eq, List.length_map, idents_length]
  refine ⟨tracks.valid.holds, ?_, fun fuel enough => ?_, fun fuel enough => ?_, tracks.count, ?_,
    fun a idle taken => reject_ok tracks idle taken⟩
  · exact (searchTree_iff Label.lt (fun _ _ _ => UInt64.lt_trans) t).mpr tracks.valid.ordered
  · exact (tracks.valid.chain.walks fuel (length ▸ enough)).1
  · exact (tracks.valid.chain.walks fuel (length ▸ enough)).2
  · intro key
    obtain ⟨found, run, found_iff⟩ := find_iff tracks.valid key
    exact ⟨found, run, fun a => (found_iff a).trans (tracks.stored a key)⟩

/-- No run of a client stops at a fault, and all of them keep the map. -/
theorem run_threadedMap (s : RbtStore) (ops : List Op) (admitted : Client.fresh.AdmitsAll ops) :
    ∃ next t, (do rbtInit; execAll ops) s = .ok ((), next) ∧
      ThreadedMap next t (Client.fresh.run ops) := by
  obtain ⟨start, first, tracks⟩ := init_tracks s
  obtain ⟨next, t, run, tracks⟩ := exec_all_tracks ops tracks admitted
  exact ⟨next, t, (bind_ok first _).trans run, tracks.threadedMap⟩

/-- What `rbt_fini` leaves: no node, and the nodes of the client as they were initialised. -/
structure Finished (s : RbtStore) (c : Client) : Prop where
  vars : s.vars = { root := none, head := none, tail := none, nelem := 0 }
  idle : ∀ a key, c.keys a = some key → ∃ n, s.heap.lookup a = some n ∧ n.Unlinked ∧ n.key = key
  again : ∀ more, (⟨c.keys, ∅⟩ : Client).AdmitsAll more → ∃ next t, execAll more s = .ok ((), next) ∧
    ThreadedMap next t ((⟨c.keys, ∅⟩ : Client).run more)

theorem Tracks.finished {s : RbtStore} {c : Client} (tracks : Tracks s .nil ⟨c.keys, ∅⟩) : Finished s c := by
  have chain := tracks.valid.chain
  constructor
  · have root : s.vars.root = none := tracks.valid.holds.2
    have vars (x : MnRbt) (first : x.root = none) (second : x.head = none) (third : x.tail = none)
        (last : x.nelem = 0) : x = { root := none, head := none, tail := none, nelem := 0 } := by
      rcases x with ⟨root, head, tail, nelem⟩
      obtain rfl : root = none := first
      obtain rfl : head = none := second
      obtain rfl : tail = none := third
      obtain rfl : nelem = 0 := last
      rfl
    exact vars s.vars root chain.head_eq chain.tail_eq tracks.valid.nelem_eq
  · exact fun a key known => tracks.idle a key (Finset.notMem_empty a) known
  · intro more admitted
    obtain ⟨next, t, run, later⟩ := exec_all_tracks more tracks admitted
    exact ⟨next, t, run, later.threadedMap⟩

/-- After any run `rbt_fini` takes every node out, and the tree can be used again. -/
theorem run_finished (s : RbtStore) (ops : List Op) (admitted : Client.fresh.AdmitsAll ops) :
    ∃ mid next, (do rbtInit; execAll ops) s = .ok ((), mid) ∧ rbtFini mid = .ok (0, next) ∧
      Finished next (Client.fresh.run ops) := by
  obtain ⟨start, first, tracks⟩ := init_tracks s
  obtain ⟨mid, t, run, tracks⟩ := exec_all_tracks ops tracks admitted
  obtain ⟨next, ended, last⟩ := tracks.fini
  exact ⟨mid, next, (bind_ok first _).trans run, ended, last.finished⟩

def sampleOps : List Op :=
  [.nodeInit 1 20 none, .insert 1, .nodeInit 2 10 none, .insert 2, .nodeInit 3 30 none, .insert 3,
    .nodeInit 4 20 none, .insert 4, .find 30, .removeNode 1, .insert 4, .insert 1, .removeKey 10]

theorem sampleOps_threadedMap :
    ∃ next t, (do rbtInit; execAll sampleOps) ⟨∅, ⟨none, none, none, 0⟩, 0⟩ = .ok ((), next) ∧
      ThreadedMap next t (Client.fresh.run sampleOps) :=
  run_threadedMap _ sampleOps (by decide)

theorem sampleOps_finished :
    ∃ mid next, (do rbtInit; execAll sampleOps) ⟨∅, ⟨none, none, none, 0⟩, 0⟩ = .ok ((), mid) ∧
      rbtFini mid = .ok (0, next) ∧ Finished next (Client.fresh.run sampleOps) :=
  run_finished _ sampleOps (by decide)

end MnCommon.Rbt
