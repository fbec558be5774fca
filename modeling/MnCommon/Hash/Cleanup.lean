import MnCommon.Hash.Chains

/-! Emptying the table; the finaliser may keep items of a chain from being freed. -/

namespace MnCommon.Hash

open Memory

variable {K V : Type} {cb : Callbacks K V} {s next : HashStore K V} {chains : Chains K V} {good : Nat → Prop}
  {i : Nat} {p : Ptr} {xs : List (Entry K V)}

/-- The variables after some of the items `xs` have been given to the finaliser and at
most all of them have been freed. -/
structure Drained (xs : List (Entry K V)) (s next : HashStore K V) : Prop where
  data : next.vars.data = s.vars.data
  length : next.vars.table.length = s.vars.table.length
  elnum : s.vars.elnum ≤ next.vars.elnum + xs.length
  finished : ∃ log, next.vars.finished = s.vars.finished ++ log ∧ log.Sublist (xs.map Prod.snd)

theorem Drained.trans {ys : List (Entry K V)} {mid : HashStore K V} (first : Drained xs s mid)
    (second : Drained ys mid next) : Drained (xs ++ ys) s next := by
  rcases first.finished with ⟨log, one, part⟩
  rcases second.finished with ⟨more, two, part'⟩
  refine ⟨second.data.trans first.data, second.length.trans first.length, ?_, log ++ more, ?_, ?_⟩
  · have lower := first.elnum
    have lower' := second.elnum
    rw [List.length_append]
    omega
  · rw [two, one, List.append_assoc]
  · rw [List.map_append]
    exact part.append part'

/-- The answer of the finaliser, after the calls that are in the log. -/
def verdict (cb : Callbacks K V) (log : List (K × V)) (pair : K × V) : Int :=
  match cb.fini with
  | none => 0
  | some fini => fini log pair.1 pair.2

theorem callFini_verdict (cb : Callbacks K V) (key : K) (value : V) (s : HashStore K V) :
    callFini cb key value s = .ok (verdict cb s.vars.finished (key, value), logged cb s (key, value)) := by
  rw [logged, finish, verdict]
  cases shape : cb.fini with
  | none =>
      simp only [callFini, shape]
      rfl
  | some fini =>
      simp only [callFini, shape]
      rfl

def finishAll (cb : Callbacks K V) (log : List (K × V)) (xs : List (Entry K V)) : List (K × V) :=
  xs.foldl (fun log x => finish cb log x.2) log

/-- The finaliser answers with zero to each of the items. -/
def Accepts (cb : Callbacks K V) : List (K × V) → List (Entry K V) → Prop
  | _, [] => True
  | log, x :: rest => verdict cb log x.2 = 0 ∧ Accepts cb (finish cb log x.2) rest

theorem accepts_append {log : List (K × V)} {ys : List (Entry K V)} :
    Accepts cb log (xs ++ ys) ↔ Accepts cb log xs ∧ Accepts cb (finishAll cb log xs) ys := by
  induction xs generalizing log with
  | nil => exact ⟨fun all => ⟨trivial, all⟩, fun all => all.2⟩
  | cons x rest ih =>
      rw [List.cons_append, Accepts, Accepts, ih, and_assoc]
      rfl

/-- The count goes down by the items exactly if the finaliser accepts all of them. -/
structure Tallied (cb : Callbacks K V) (xs : List (Entry K V)) (s next : HashStore K V) : Prop
    extends Drained xs s next where
  accepted : xs.length ≤ s.vars.elnum → Accepts cb s.vars.finished xs →
    next.vars.elnum + xs.length = s.vars.elnum ∧ next.vars.finished = finishAll cb s.vars.finished xs
  refused : xs.length ≤ s.vars.elnum → ¬ Accepts cb s.vars.finished xs →
    s.vars.elnum < next.vars.elnum + xs.length

theorem Tallied.trans {ys : List (Entry K V)} {mid : HashStore K V} (first : Tallied cb xs s mid)
    (second : Tallied cb ys mid next) : Tallied cb (xs ++ ys) s next := by
  refine ⟨first.toDrained.trans second.toDrained, fun counted accepts => ?_, fun counted refuses => ?_⟩
  · rw [List.length_append] at counted ⊢
    rcases accepts_append.mp accepts with ⟨one, two⟩
    rcases first.accepted (by omega) one with ⟨fewer, log⟩
    rw [← log] at two
    rcases second.accepted (by omega) two with ⟨fewer', log'⟩
    refine ⟨by omega, ?_⟩
    rw [log', log, finishAll, finishAll, finishAll, List.foldl_append]
  · rw [List.length_append] at counted ⊢
    by_cases one : Accepts cb s.vars.finished xs
    · rcases first.accepted (by omega) one with ⟨fewer, log⟩
      have two : ¬ Accepts cb mid.vars.finished ys := by
        rw [log]
        exact fun two => refuses (accepts_append.mpr ⟨one, two⟩)
      have more := second.refused (by omega) two
      omega
    · have more := first.refused (by omega) one
      have lower := second.elnum
      omega

theorem cleanupChain_tallied (cb : Callbacks K V) {strict : Prop} {before : Ptr}
    (seg : links.Segment pairOf s.heap strict before p xs)
    (once : (xs.map Prod.fst).Nodup) (fuel : Nat) (enough : xs.length ≤ fuel) :
    ∃ next, cleanupChain cb fuel p s = .ok ((), next) ∧ next.vars.table = s.vars.table ∧ Tallied cb xs s next ∧
      ∀ c, (∀ x ∈ xs, x.1 ≠ c) → next.heap.lookup c = s.heap.lookup c := by
  induction xs generalizing s strict before p fuel with
  | nil =>
      obtain rfl : p = none := seg
      have idle : Tallied cb [] s s :=
        ⟨⟨rfl, rfl, Nat.le_refl _, [], (List.append_nil _).symm, List.nil_sublist _⟩, fun _ _ => ⟨rfl, rfl⟩,
          fun _ refuses => absurd trivial refuses⟩
      refine ⟨s, ?_, rfl, idle, fun _ _ => rfl⟩
      cases fuel with
      | zero => rfl
      | succ fuel => rfl
  | cons x rest ih =>
      rcases seg with ⟨rfl, n, cell, pair, -, tail⟩
      rcases List.nodup_cons.mp once with ⟨new, once⟩
      cases fuel with
      | zero => exact absurd enough (Nat.not_succ_le_zero _)
      | succ fuel =>
          have called := callFini_verdict cb n.key n.value s
          have whole : (n.key, n.value) = x.2 := pair
          have called_log : ∃ log, finish cb s.vars.finished (n.key, n.value) = s.vars.finished ++ log ∧
              log.Sublist [x.2] := by
            rw [whole, finish]
            split
            · exact ⟨[x.2], rfl, .refl _⟩
            · exact ⟨[], (List.append_nil _).symm, List.nil_sublist _⟩
          rcases called_log with ⟨log, logs, part⟩
          rw [cleanupChain, bind_ok (load_ok cell), bind_ok called, run_ite]
          by_cases veto : verdict cb s.vars.finished (n.key, n.value) ≠ 0
          · refine ⟨logged cb s (n.key, n.value), ?_, rfl, ⟨⟨rfl, rfl, Nat.le_add_right _ _, log, logs, ?_⟩,
              fun _ accepts => ?_, fun _ _ => Nat.lt_add_of_pos_right (Nat.succ_pos _)⟩, fun _ _ => rfl⟩
            · rw [if_pos veto]
              rfl
            · exact part.trans (List.singleton_sublist.mpr List.mem_cons_self)
            · exact absurd (whole ▸ accepts.1) veto
          · let freed : HashStore K V := ⟨s.heap.erase x.1, { s.vars with
              finished := finish cb s.vars.finished (n.key, n.value), elnum := s.vars.elnum - 1 }, s.tick⟩
            have one : Tallied cb [x] s freed := by
              refine ⟨⟨rfl, rfl, ?_, log, logs, part⟩, fun counted _ => ⟨?_, ?_⟩, fun _ refuses => ?_⟩
              · change s.vars.elnum ≤ s.vars.elnum - 1 + 1
                omega
              · exact Nat.sub_add_cancel counted
              · change finish cb s.vars.finished (n.key, n.value) = finish cb s.vars.finished x.2
                rw [whole]
              · exact absurd ⟨whole ▸ not_not.mp veto, trivial⟩ refuses
            have behind : links.Segment pairOf freed.heap True (some x.1) n.next rest := by
              refine tail.frame fun y inside => Finmap.lookup_erase_ne ?_
              exact fun same => new (same ▸ List.mem_map_of_mem inside)
            rcases ih behind once fuel (Nat.le_of_succ_le_succ enough) with ⟨next, run, table, drained, kept⟩
            refine ⟨next, ?_, table, one.trans drained, fun c away => ?_⟩
            · rw [if_neg veto]
              apply (bind_ok (free_ok (s := logged cb s (n.key, n.value)) cell) _).trans
              exact (bind_ok (rfl : countDown _ = .ok ((), freed)) _).trans run
            · rw [kept c fun y inside => away y (List.mem_cons_of_mem _ inside)]
              exact Finmap.lookup_erase_ne (away x List.mem_cons_self).symm

/-- The slots are emptied one after the other. -/
theorem cleanupSlots_tallied (holds : Holds cb s chains good) (is : List Nat) (low : ∀ i ∈ is, i < s.vars.table.length)
    (once : is.Nodup) :
    ∃ next chains' good', cleanupSlots cb is s = .ok ((), next) ∧ Holds cb next chains' good' ∧
      (∀ i, chains' i = if i ∈ is then [] else chains i) ∧ Tallied cb (is.flatMap chains) s next := by
  induction is generalizing s chains good with
  | nil =>
      refine ⟨s, chains, good, rfl, holds, fun i => rfl, ⟨rfl, rfl, Nat.le_refl _, [], ?_, List.nil_sublist _⟩,
        fun _ _ => ⟨rfl, rfl⟩, fun _ refuses => absurd trivial refuses⟩
      exact (List.append_nil _).symm
  | cons i rest ih =>
      rcases List.nodup_cons.mp once with ⟨new, once⟩
      have here := low i List.mem_cons_self
      rcases cleanupChain_tallied cb (holds.seg here) (holds.once i here) s.bound
        ((holds.short here).trans (Nat.le_succ _)) with ⟨mid, run, table, drained, kept⟩
      let cleared : HashStore K V := { mid with vars := { mid.vars with table := mid.vars.table.set i none } }
      have low' : i < mid.vars.table.length := drained.length ▸ here
      have written : writeSlot (some (s.vars.data, i)) none mid = .ok ((), cleared) := by
        rw [← drained.data]
        exact writeSlot_ok low' none
      have empty : Holds cb cleared (Function.update chains i []) (Function.update good i True) := by
        refine holds.change here drained.data ?_ rfl (fun _ => nofun) nofun .nil fun j low'' other y inside =>
          ⟨kept y.1 fun x member => ?_, nofun⟩
        · exact congrArg (List.set · i none) table
        · exact holds.apart i here j low'' other.symm x member y inside
      have size : cleared.vars.table.length = s.vars.table.length := by
        rw [← drained.length]
        exact List.length_set ..
      have first : Tallied cb (chains i) s cleared :=
        ⟨⟨drained.data, size, drained.elnum, drained.finished⟩, drained.accepted, drained.refused⟩
      rcases ih empty (fun j inside => size ▸ low j (List.mem_cons_of_mem _ inside)) once with
        ⟨next, chains', good', later, after, shape, drained'⟩
      have same : rest.flatMap (Function.update chains i []) = rest.flatMap chains :=
        List.flatMap_congr fun j inside => Function.update_of_ne (fun equal : j = i => new (equal ▸ inside)) ..
      rw [same] at drained'
      refine ⟨next, chains', good', ?_, after, fun j => ?_, first.trans drained'⟩
      · rw [cleanupSlots, run_bind]
        simp only [vars]
        rw [bind_ok (readSlot_ok (holds.head here)), bound_bind, bind_ok run]
        exact (bind_ok written _).trans later
      · rw [shape]
        by_cases inside : j ∈ rest
        · rw [if_pos inside, if_pos (List.mem_cons_of_mem _ inside)]
        · rw [if_neg inside, Function.update_apply]
          by_cases equal : j = i
          · rw [if_pos equal, if_pos (equal ▸ List.mem_cons_self)]
          · rw [if_neg equal, if_neg (List.not_mem_cons_of_ne_of_not_mem equal inside)]

theorem hashCleanup_tallied (holds : Holds cb s chains good) :
    ∃ next, hashCleanup cb s = .ok ((), next) ∧ Holds cb next (fun _ => []) (fun _ => True) ∧
      Tallied cb (allOf s.vars.table.length chains) s next := by
  have low : ∀ i ∈ List.range s.vars.table.length, i < s.vars.table.length := fun i => List.mem_range.mp
  rcases cleanupSlots_tallied holds _ low List.nodup_range with ⟨next, chains', good', run, after, shape, drained⟩
  have cleared : next.vars.table = List.replicate s.vars.table.length none := by
    apply List.eq_replicate_iff.mpr
    refine ⟨drained.length, fun head inside => ?_⟩
    rcases List.getElem?_of_mem inside with ⟨i, here⟩
    have low' : i < next.vars.table.length := (List.getElem?_eq_some_iff.mp here).1
    have empty : chains' i = [] := by
      rw [shape, if_pos (List.mem_range.mpr (drained.length ▸ low'))]
    rw [after.head low', empty] at here
    exact (Option.some.inj here).symm
  exact ⟨next, run, holds_cleared cb holds.nonempty cleared, drained⟩

end MnCommon.Hash
