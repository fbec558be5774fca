import MnCommon.Hash.Chains

/-! Taking items out of their chains. -/

namespace MnCommon.Hash

open Memory

variable {K V : Type} {cb : Callbacks K V} {s next : HashStore K V} {chains : Chains K V} {good : Nat → Prop}
  {i : Nat} {n : MnHashItem K V} {key : K} {front back : List (Entry K V)}

section Apart

variable {x : Entry K V} (once : ((front ++ x :: back).map Prod.fst).Nodup)
include once

theorem others_ne {y : Entry K V} (inside : y ∈ front ++ back) : y.1 ≠ x.1 := by
  intro same
  rw [List.map_append, List.map_cons, List.nodup_middle] at once
  apply (List.nodup_cons.mp once).1
  rw [← List.map_append, ← same]
  exact List.mem_map_of_mem inside

theorem front_ne {y z : Entry K V} (first : y ∈ front) (second : z ∈ x :: back) : y.1 ≠ z.1 := by
  intro same
  rw [List.map_append, List.nodup_append] at once
  exact once.2.2 y.1 (List.mem_map_of_mem first) z.1 (List.mem_map_of_mem second) same

/-- The item behind `x` is not one of those up to `x`. -/
theorem head_ne {w : Entry K V} (member : w ∈ front ++ [x]) : back.head?.map Prod.fst ≠ some w.1 := by
  intro top
  rcases Option.map_eq_some_iff.mp top with ⟨z, head, equal⟩
  have within := List.mem_of_head? head
  rcases List.mem_append.mp member with early | here
  · exact front_ne once early (List.mem_cons_of_mem _ within) equal.symm
  · rw [List.mem_singleton.mp here] at equal
    exact others_ne once (List.mem_append_right _ within) equal

end Apart

/-- An item goes: its neighbours are linked with each other. -/
theorem Holds.drop (holds : Holds cb s chains good) (low : i < s.vars.table.length) {g : Prop} {x : Entry K V}
    (shape : chains i = front ++ x :: back) (cell : s.heap.lookup x.1 = some n)
    (data : next.vars.data = s.vars.data)
    (table : next.vars.table = s.vars.table.set i ((front ++ back).head?.map Prod.fst))
    (left : ∀ y ∈ front.getLast?, ∀ m, s.heap.lookup y.1 = some m →
      next.heap.lookup y.1 = some { m with next := n.next })
    (right : ∀ y ∈ back.head?, ∀ m, s.heap.lookup y.1 = some m → ∃ bucket,
      next.heap.lookup y.1 = some { m with prev := Links.lastOf none front, bucket := bucket })
    (others : ∀ c, c ≠ x.1 → front.getLast?.map Prod.fst ≠ some c → back.head?.map Prod.fst ≠ some c →
      next.heap.lookup c = s.heap.lookup c)
    (first : g → ∀ y ∈ (front ++ back).head?, ∃ m, next.heap.lookup y.1 = some m ∧ m.prev = none ∧
      m.bucket = some (s.vars.data, i)) :
    Holds cb next (Function.update chains i (front ++ back)) (Function.update good i g) := by
  have seg := holds.seg low
  have once := holds.once i low
  have placed := holds.placed i low
  rw [shape] at seg once placed
  have distinct : ((front ++ back).map Prod.fst).Nodup := by
    rw [List.map_append, List.map_cons, List.nodup_middle] at once
    rw [List.map_append]
    exact (List.nodup_cons.mp once).2
  have unique : ∀ y ∈ front ++ back, ∀ z ∈ front ++ back, y.1 = z.1 → y = z := by
    intro y inside z within same
    exact List.inj_on_of_nodup_map distinct inside within same
  rcases seg.middle with ⟨n', cell', -, link, -⟩
  obtain rfl : n = n' := Option.some.inj (cell.symm.trans cell')
  have remaining : links.Segment pairOf next.heap False none
      (if front = [] then n.next else (front ++ x :: back).head?.map Prod.fst) (front ++ back) := by
    refine seg.weaken.unlink once cell (fun y last m known => ?_) (fun y top m known => ?_)
      fun y inside last top => ?_
    · exact ⟨_, left y last m known, rfl, rfl, rfl⟩
    · rcases right y top m known with ⟨bucket, after⟩
      refine ⟨_, after, rfl, rfl, fun either => ?_⟩
      rcases either with behind | wrong
      · exact (link (.inl behind)).symm
      · exact wrong.elim
    · have member : y ∈ front ++ back := inside
      refine others y.1 (others_ne once member) (fun same => ?_) fun same => ?_
      · rcases Option.map_eq_some_iff.mp same with ⟨z, here, equal⟩
        have equal' := unique z (List.mem_append_left _ (List.mem_of_getLast? here)) y member equal
        exact last (equal' ▸ here)
      · rcases Option.map_eq_some_iff.mp same with ⟨z, here, equal⟩
        have equal' := unique z (List.mem_append_right _ (List.mem_of_head? here)) y member equal
        exact top (equal' ▸ here)
  have head : (if front = [] then n.next else (front ++ x :: back).head?.map Prod.fst) =
      (front ++ back).head?.map Prod.fst := remaining.head_eq
  rw [head] at remaining
  have member : ∀ y ∈ front ++ back, y ∈ chains i := by
    intro y inside
    rw [shape]
    rcases List.mem_append.mp inside with before | behind
    · exact List.mem_append_left _ before
    · exact List.mem_append_right _ (List.mem_cons_of_mem _ behind)
  refine holds.change low data table (remaining.strengthen fun fine y top m known => ?_) (fun fine y top => ?_)
    (fun y inside => holds.placed i low y (member y inside)) distinct fun j low' other y inside =>
    ⟨others y.1 ?_ (fun same => ?_) fun same => ?_, fun z within =>
      holds.apart i low j low' other.symm z (member z within) y inside⟩
  · rcases first fine y top with ⟨m', known', prev, -⟩
    obtain rfl : m = m' := Option.some.inj (known.symm.trans known')
    exact prev
  · rcases first fine y top with ⟨m, known, -, bucket⟩
    exact ⟨m, known, bucket⟩
  · exact holds.apart j low' i low other y inside x (shape ▸ List.mem_append_right _ List.mem_cons_self)
  · rcases Option.map_eq_some_iff.mp same with ⟨z, here, equal⟩
    exact holds.apart i low j low' other.symm z (member z (List.mem_append_left _ (List.mem_of_getLast? here))) y
      inside equal
  · rcases Option.map_eq_some_iff.mp same with ⟨z, here, equal⟩
    exact holds.apart i low j low' other.symm z (member z (List.mem_append_right _ (List.mem_of_head? here))) y
      inside equal

theorem Holds.first_fine (holds : Holds cb s chains good) (low : i < s.vars.table.length) (fine : good i)
    {x : Entry K V} (first : x ∈ (chains i).head?) :
    ∃ m, s.heap.lookup x.1 = some m ∧ m.prev = none ∧ m.bucket = some (s.vars.data, i) := by
  rcases holds.bucket i low fine x first with ⟨m, cell, bucket⟩
  have seg := holds.seg low
  cases shape : chains i with
  | nil =>
      rw [shape] at first
      cases first
  | cons y rest =>
      rw [shape] at first seg
      obtain rfl : y = x := Option.some.inj first
      rcases seg with ⟨-, m', cell', -, prev, -⟩
      obtain rfl : m = m' := Option.some.inj (cell.symm.trans cell')
      exact ⟨m, cell, prev fine, bucket⟩

/-- The item behind the one that goes gets the one in front of it, if there is one. -/
theorem relink_next (forth : n.next = back.head?.map Prod.fst) {mid : Heap (MnHashItem K V)}
    (cells : ∀ z ∈ back.head?, ∃ k, mid.lookup z.1 = some k) :
    ∃ after : Heap (MnHashItem K V),
      (n.next ≠ none → update n.next (fun y => { y with prev := n.prev }) { s with heap := mid } =
        .ok ((), { s with heap := after })) ∧ (n.next = none → after = mid) ∧
      (∀ z ∈ back.head?, ∀ k, mid.lookup z.1 = some k → after.lookup z.1 = some { k with prev := n.prev }) ∧
      ∀ c, back.head?.map Prod.fst ≠ some c → after.lookup c = mid.lookup c := by
  cases back with
  | nil => exact ⟨mid, fun there => absurd forth there, fun _ => rfl, by simp, fun _ _ => rfl⟩
  | cons z rest =>
      rcases cells z rfl with ⟨k, cell⟩
      have next_eq : n.next = some z.1 := forth
      refine ⟨mid.insert z.1 { k with prev := n.prev }, fun _ => ?_, fun none_left => ?_, fun w top k' known => ?_,
        fun c away => ?_⟩
      · rw [next_eq]
        exact update_ok _ cell
      · exact absurd (next_eq.symm.trans none_left) (Option.some_ne_none _)
      · obtain rfl : z = w := Option.some.inj top
        obtain rfl : k = k' := Option.some.inj (cell.symm.trans known)
        exact Finmap.lookup_insert _
      · exact Finmap.lookup_insert_of_ne _ fun same => away (congrArg some same.symm)

/-- The neighbours of an item that is not the first one are linked with each other. -/
theorem bypass_ok (holds : Holds cb s chains good) (low : i < s.vars.table.length) {x : Entry K V}
    (shape : chains i = front ++ x :: back) (cell : s.heap.lookup x.1 = some n) (behind : front ≠ []) :
    ∃ mid after : Heap (MnHashItem K V), n.prev ≠ none ∧
      update n.prev (fun y => { y with next := n.next }) s = .ok ((), { s with heap := mid }) ∧
      mid.lookup x.1 = some n ∧
      (n.next ≠ none → update n.next (fun y => { y with prev := n.prev }) { s with heap := mid } =
        .ok ((), { s with heap := after })) ∧ (n.next = none → after = mid) ∧ after.lookup x.1 = some n ∧
      Holds cb { s with heap := after.erase x.1 } (Function.update chains i (front ++ back)) good := by
  have seg := holds.seg low
  have once := holds.once i low
  rw [shape] at seg once
  rcases seg.middle with ⟨n', cell', -, link, tail⟩
  obtain rfl : n = n' := Option.some.inj (cell.symm.trans cell')
  have inside : ∀ y ∈ front ++ x :: back, y ∈ chains i := fun y member => shape ▸ member
  have last : front.getLast? = some (front.getLast behind) := List.getLast?_eq_some_getLast behind
  generalize front.getLast behind = y at last
  have before : y ∈ front := List.mem_of_getLast? last
  have above : Links.lastOf none front = some y.1 := by
    rw [Links.lastOf, last]
    rfl
  have prev : n.prev = some y.1 := (link (.inl behind)).trans above
  have apart := front_ne once before List.mem_cons_self
  have atTop : ∀ z ∈ back.head?, z ∈ x :: back := fun z top => List.mem_cons_of_mem _ (List.mem_of_head? top)
  rcases holds.cell low (inside y (List.mem_append_left _ before)) with ⟨m, leftCell, -⟩
  let mid := s.heap.insert y.1 { m with next := n.next }
  have untouched : ∀ c, c ≠ y.1 → mid.lookup c = s.heap.lookup c := fun c other => Finmap.lookup_insert_of_ne _ other
  have kept : mid.lookup x.1 = some n := (untouched x.1 apart.symm).trans cell
  have cells : ∀ z ∈ back.head?, ∃ k, mid.lookup z.1 = some k := by
    intro z top
    rcases holds.cell low (inside z (List.mem_append_right _ (atTop z top))) with ⟨k, known, -⟩
    exact ⟨k, (untouched z.1 (front_ne once before (atTop z top)).symm).trans known⟩
  rcases relink_next tail.head_eq cells with ⟨after, run, same, right, others⟩
  have leftAfter : after.lookup y.1 = some { m with next := n.next } := by
    rw [others y.1 (head_ne once (List.mem_append_left _ before))]
    exact Finmap.lookup_insert _
  have elsewhere : ∀ c, c ≠ y.1 → back.head?.map Prod.fst ≠ some c → after.lookup c = s.heap.lookup c :=
    fun c away top => (others c top).trans (untouched c away)
  refine ⟨mid, after, by rw [prev]; exact Option.some_ne_none _, ?_, kept, run, same, ?_, ?_⟩
  · rw [prev]
    exact update_ok _ leftCell
  · rw [elsewhere x.1 apart.symm (head_ne once (List.mem_append_right _ (List.mem_singleton_self x))), cell]
  · have unchanged : Function.update good i (good i) = good := Function.update_eq_self i good
    have heads : (front ++ back).head? = (chains i).head? := by
      rw [shape, List.head?_append_of_ne_nil _ behind, List.head?_append_of_ne_nil _ behind]
    rw [← unchanged]
    refine holds.drop low shape cell rfl ?_ (fun w final k known => ?_) (fun w top k known => ?_)
      (fun c away final top => ?_) fun fine w top => ?_
    · rw [heads]
      exact (set_same (holds.head low)).symm
    · obtain rfl : y = w := Option.some.inj (last.symm.trans final)
      obtain rfl : m = k := Option.some.inj (leftCell.symm.trans known)
      exact (Finmap.lookup_erase_ne apart).trans leftAfter
    · have away := others_ne once (List.mem_append_right front (List.mem_of_head? top))
      have moved := (untouched w.1 (front_ne once before (atTop w top)).symm).trans known
      refine ⟨k.bucket, (Finmap.lookup_erase_ne away).trans ?_⟩
      rw [right w top k moved, above, prev]
    · refine (Finmap.lookup_erase_ne away).trans (elsewhere c (fun equal => final ?_) top)
      rw [last, equal]
      rfl
    · rw [heads] at top
      have early : w ∈ front := by
        rw [shape, List.head?_append_of_ne_nil _ behind] at top
        exact List.mem_of_head? top
      rcases holds.first_fine low fine top with ⟨k, known, noPrev, bucket⟩
      have away := front_ne once early List.mem_cons_self
      by_cases final : w.1 = y.1
      · rw [final] at known ⊢
        obtain rfl : m = k := Option.some.inj (leftCell.symm.trans known)
        exact ⟨_, (Finmap.lookup_erase_ne apart).trans leftAfter, noPrev, bucket⟩
      · refine ⟨k, (Finmap.lookup_erase_ne away).trans ?_, noPrev, bucket⟩
        rw [elsewhere w.1 final (head_ne once (List.mem_append_left _ early)), known]

theorem Holds.counted (holds : Holds cb s chains good) (elnum : Nat) :
    Holds cb { s with vars := { s.vars with elnum := elnum } } chains good :=
  ⟨holds.nonempty, holds.slot, holds.bucket, holds.placed, holds.once, holds.apart⟩

theorem cmp_of_away {y : Entry K V} (away : hit cb key y = false) : ¬ cb.cmp key y.2.1 = 0 := fun equal =>
  Bool.false_ne_true (away.symm.trans (decide_eq_true equal))

/-- An item leads to the one behind it. -/
theorem Holds.successor (holds : Holds cb s chains good) (low : i < s.vars.table.length) {x y : Entry K V}
    (shape : chains i = front ++ x :: y :: back) :
    ∃ n m, s.heap.lookup x.1 = some n ∧ n.next = some y.1 ∧ s.heap.lookup y.1 = some m ∧ m.key = y.2.1 ∧
      m.value = y.2.2 := by
  have seg := holds.seg low
  rw [shape] at seg
  rcases seg.middle with ⟨n, cell, -, -, forth, m, cell', pair, -, -⟩
  exact ⟨n, m, cell, forth, cell', congrArg Prod.fst pair, congrArg Prod.snd pair⟩

theorem Holds.second_cell (holds : Holds cb s chains good) (low : i < s.vars.table.length) {x z : Entry K V}
    (shape : chains i = x :: z :: back) : ∃ k, s.heap.lookup z.1 = some k ∧ z.1 ≠ x.1 := by
  have once := holds.once i low
  rw [shape] at once
  have member : z ∈ chains i := shape ▸ List.mem_cons_of_mem _ List.mem_cons_self
  rcases holds.cell low member with ⟨k, cell, -⟩
  refine ⟨k, cell, fun same => (List.nodup_cons.mp once).1 ?_⟩
  rw [← same]
  exact List.mem_map_of_mem List.mem_cons_self

/-- An item that is not equal to the key is passed. -/
theorem removeBehind_pass (holds : Holds cb s chains good) (low : i < s.vars.table.length) {x y : Entry K V}
    (shape : chains i = front ++ x :: y :: back) (away : hit cb key y = false) (fuel : Nat) :
    removeBehind cb key (fuel + 1) (some x.1) s = removeBehind cb key fuel (some y.1) s := by
  rcases holds.successor low shape with ⟨n, m, cell, next_eq, cell', key_eq, -⟩
  rw [removeBehind, bind_ok (load_ok cell), run_ite, next_eq, if_neg (Option.some_ne_none _), bind_ok (load_ok cell'),
    run_ite, key_eq, if_neg (cmp_of_away away)]

/-- An item that is equal to the key is taken out. -/
theorem removeBehind_hit (holds : Holds cb s chains good) (low : i < s.vars.table.length) {x z : Entry K V}
    (shape : chains i = front ++ x :: z :: back) (found : hit cb key z = true) (fuel : Nat) :
    ∃ next, removeBehind cb key (fuel + 1) (some x.1) s = .ok (some z.2.2, next) ∧
      Holds cb next (Function.update chains i (front ++ [x] ++ back)) good ∧
      Leaves (s.vars.elnum - 1) s.vars.finished s next := by
  rcases holds.successor low shape with ⟨n, m, cell, next_eq, cell', key_eq, value_eq⟩
  have equal : cb.cmp key z.2.1 = 0 := of_decide_eq_true found
  have split : chains i = (front ++ [x]) ++ z :: back := by
    rw [shape, List.append_assoc]
    rfl
  rcases bypass_ok holds low split cell' (List.append_ne_nil_of_right_ne_nil _ (List.cons_ne_nil _ _)) with
    ⟨heap, heap', -, first, kept, second, same, kept', after⟩
  let relinked : HashStore K V := { s with heap := heap' }
  have freed := bind_ok (@free_ok _ _ relinked _ _ kept') fun _ => do
    countDown
    pure (some z.2.2)
  refine ⟨_, ?_, after.counted (s.vars.elnum - 1), rfl, rfl, rfl, rfl⟩
  rw [removeBehind, bind_ok (load_ok cell), run_ite, next_eq, if_neg (Option.some_ne_none _), bind_ok (load_ok cell'),
    run_ite, key_eq, if_pos equal, bind_ok first, value_eq]
  by_cases last : m.next = none
  · obtain rfl := same last
    rw [if_neg (not_not.mpr last)]
    exact freed
  · rw [if_pos last, bind_ok (second last)]
    exact freed

/-- The items behind the first one up to the first that is equal to the key. -/
theorem removeBehind_none (holds : Holds cb s chains good) (low : i < s.vars.table.length)
    (front : List (Entry K V)) {x : Entry K V} (shape : chains i = front ++ x :: back) (fuel : Nat)
    (enough : back.length < fuel)
    (away : ∀ y ∈ back, hit cb key y = false) : removeBehind cb key fuel (some x.1) s = .ok (none, s) := by
  induction back generalizing front x fuel with
  | nil =>
      have seg := holds.seg low
      rw [shape] at seg
      rcases seg.middle with ⟨n, cell, -, -, tail⟩
      have last : n.next = none := tail
      cases fuel with
      | zero => exact absurd enough (Nat.not_lt_zero _)
      | succ fuel => rw [removeBehind, bind_ok (load_ok cell), run_ite, if_pos last, run_pure]
  | cons y rest ih =>
      cases fuel with
      | zero => exact absurd enough (Nat.not_lt_zero _)
      | succ fuel =>
          have further : chains i = (front ++ [x]) ++ y :: rest := by
            rw [shape, List.append_assoc]
            rfl
          rw [removeBehind_pass holds low shape (away y List.mem_cons_self)]
          exact ih _ further fuel (Nat.lt_of_succ_lt_succ enough) fun z inside => away z (List.mem_cons_of_mem _ inside)

theorem removeBehind_some (holds : Holds cb s chains good) (low : i < s.vars.table.length)
    (front : List (Entry K V)) {x z : Entry K V} {mid : List (Entry K V)}
    (shape : chains i = front ++ x :: (mid ++ z :: back)) (fuel : Nat)
    (enough : mid.length < fuel) (away : ∀ y ∈ mid, hit cb key y = false) (found : hit cb key z = true) :
    ∃ next, removeBehind cb key fuel (some x.1) s = .ok (some z.2.2, next) ∧
      Holds cb next (Function.update chains i (front ++ x :: mid ++ back)) good ∧
      Leaves (s.vars.elnum - 1) s.vars.finished s next := by
  induction mid generalizing front x fuel with
  | nil =>
      cases fuel with
      | zero => exact absurd enough (Nat.not_lt_zero _)
      | succ fuel => exact removeBehind_hit holds low shape found fuel
  | cons y mid ih =>
      cases fuel with
      | zero => exact absurd enough (Nat.not_lt_zero _)
      | succ fuel =>
          have further : chains i = (front ++ [x]) ++ y :: (mid ++ z :: back) := by
            rw [shape, List.append_assoc]
            rfl
          have rest : front ++ x :: (y :: mid) ++ back = front ++ [x] ++ y :: mid ++ back := by
            rw [List.append_assoc front [x]]
            rfl
          rw [removeBehind_pass holds low shape (away y List.mem_cons_self), rest]
          exact ih _ further fuel (Nat.lt_of_succ_lt_succ enough) fun z inside => away z (List.mem_cons_of_mem _ inside)

theorem hashRemoveItem_none (holds : Holds cb s chains good) (key : K)
    (new : visible cb s.vars.table.length chains key = none) : hashRemoveItem cb key s = .ok (none, s) := by
  have low := place_lt cb holds.nonempty key
  rw [hashRemoveItem, bind_ok (slotOf_ok holds.nonempty key), bind_ok (readSlot_ok (holds.head low)), run_ite]
  rw [visible] at new
  generalize place cb s.vars.table.length key = i at low new
  have away : ∀ y ∈ chains i, hit cb key y = false := fun y inside =>
    Bool.not_eq_true _ |>.mp (List.find?_eq_none.mp new y inside)
  cases shape : chains i with
  | nil => exact if_pos rfl
  | cons x rest =>
      have seg := holds.seg low
      have short := holds.short low
      rw [shape] at seg away short
      rcases seg with ⟨-, n, cell, pair, -, -⟩
      have key_eq : n.key = x.2.1 := congrArg Prod.fst pair
      have other := cmp_of_away (away x List.mem_cons_self)
      rw [List.head?_cons, Option.map_some, if_neg (Option.some_ne_none _), bind_ok (load_ok cell), run_ite, key_eq,
        if_neg other, bound_bind]
      have bounded : rest.length < s.bound := (Nat.lt_succ_of_le (Nat.le_of_succ_le short))
      exact removeBehind_none holds low [] shape s.bound bounded fun y inside =>
        away y (List.mem_cons_of_mem _ inside)

/-- What the removal of the first item of a chain writes. -/
theorem removeFirst_heap (holds : Holds cb s chains good) (low : i < s.vars.table.length) {x : Entry K V}
    (shape : chains i = x :: back) (cell : s.heap.lookup x.1 = some n) :
    ∃ heap : Heap (MnHashItem K V), ((back.head?.map Prod.fst ≠ none →
        update (back.head?.map Prod.fst) (fun y => { y with prev := none }) s = .ok ((), { s with heap := heap })) ∧
        (back.head?.map Prod.fst = none → heap = s.heap)) ∧ heap.lookup x.1 = some n ∧
      Holds cb ⟨heap.erase x.1, { s.vars with table := s.vars.table.set i (back.head?.map Prod.fst) }, s.tick⟩
        (Function.update chains i back) (Function.update good i (back = [])) := by
  have whole : chains i = [] ++ x :: back := shape
  cases back with
  | nil =>
      refine ⟨s.heap, ⟨fun there => absurd rfl there, fun _ => rfl⟩, cell, ?_⟩
      refine holds.drop low whole cell rfl rfl nofun nofun (fun c away _ _ => ?_) nofun
      exact Finmap.lookup_erase_ne away
  | cons z rest =>
      rcases holds.second_cell low shape with ⟨k, cell', apart⟩
      refine ⟨s.heap.insert z.1 { k with prev := none }, ⟨fun _ => update_ok _ cell', nofun⟩, ?_, ?_⟩
      · rw [Finmap.lookup_insert_of_ne _ apart.symm, cell]
      · refine holds.drop low whole cell rfl rfl nofun (fun w top m known => ?_) (fun c away _ top => ?_) nofun
        · obtain rfl : z = w := Option.some.inj top
          obtain rfl : k = m := Option.some.inj (cell'.symm.trans known)
          exact ⟨k.bucket, (Finmap.lookup_erase_ne apart).trans (Finmap.lookup_insert _)⟩
        · have other : c ≠ z.1 := fun same => top (congrArg some same.symm)
          exact (Finmap.lookup_erase_ne away).trans (Finmap.lookup_insert_of_ne _ other)

/-- The first item of its chain is equal to the key and goes; only an empty chain is in
order afterwards. -/
theorem hashRemoveItem_first (holds : Holds cb s chains good) (key : K) {x : Entry K V}
    (placed : place cb s.vars.table.length key = i) (shape : chains i = x :: back) (found : hit cb key x = true) :
    ∃ next, hashRemoveItem cb key s = .ok (some x.2.2, next) ∧
      Holds cb next (Function.update chains i back) (Function.update good i (back = [])) ∧
      Leaves (s.vars.elnum - 1) s.vars.finished s next := by
  have low := place_lt cb holds.nonempty key
  rw [hashRemoveItem, bind_ok (slotOf_ok holds.nonempty key), bind_ok (readSlot_ok (holds.head low)), run_ite]
  rw [placed] at low ⊢
  have seg := holds.seg low
  rw [shape] at seg
  rcases seg with ⟨-, n, cell, pair, -, tail⟩
  have forth : n.next = back.head?.map Prod.fst := tail.head_eq
  have key_eq : n.key = x.2.1 := congrArg Prod.fst pair
  have value_eq : n.value = x.2.2 := congrArg Prod.snd pair
  have equal : cb.cmp key x.2.1 = 0 := of_decide_eq_true found
  have head : (chains i).head?.map Prod.fst = some x.1 := by
    rw [shape]
    rfl
  rw [head, if_neg (Option.some_ne_none _), bind_ok (load_ok cell), run_ite, key_eq, if_pos equal, value_eq, forth]
  rcases removeFirst_heap holds low shape cell with ⟨heap, run, kept, after⟩
  let told : HashStore K V := { s with heap := heap }
  let cleared : HashStore K V :=
    { told with vars := { s.vars with table := s.vars.table.set i (back.head?.map Prod.fst) } }
  refine ⟨_, ?_, after.counted (s.vars.elnum - 1), rfl, List.length_set .., rfl, rfl⟩
  have written : writeSlot (some (s.vars.data, i)) (back.head?.map Prod.fst) told = .ok ((), cleared) :=
    @writeSlot_ok _ _ told _ low _
  have freed := bind_ok (@free_ok _ _ cleared _ _ kept) fun _ => do
    countDown
    pure (some x.2.2)
  by_cases last : back.head?.map Prod.fst = none
  · obtain rfl := run.2 last
    rw [if_neg (not_not.mpr last)]
    exact (bind_ok written _).trans freed
  · rw [if_pos last, bind_ok (run.1 last)]
    exact (bind_ok written _).trans freed

/-- The items of the chain up to the one that goes are not equal to the key. -/
theorem hashRemoveItem_later (holds : Holds cb s chains good) (key : K) {x y : Entry K V} {mid : List (Entry K V)}
    (placed : place cb s.vars.table.length key = i) (shape : chains i = y :: mid ++ x :: back)
    (away : ∀ z ∈ y :: mid, hit cb key z = false) (found : hit cb key x = true) :
    ∃ next, hashRemoveItem cb key s = .ok (some x.2.2, next) ∧
      Holds cb next (Function.update chains i (y :: mid ++ back)) good ∧
      Leaves (s.vars.elnum - 1) s.vars.finished s next := by
  have low := place_lt cb holds.nonempty key
  rw [hashRemoveItem, bind_ok (slotOf_ok holds.nonempty key), bind_ok (readSlot_ok (holds.head low)), run_ite]
  rw [placed] at low ⊢
  have seg := holds.seg low
  have short := holds.short low
  rw [shape] at seg short
  rcases seg with ⟨-, n, cell, pair, -, -⟩
  have key_eq : n.key = y.2.1 := congrArg Prod.fst pair
  have bounded : mid.length < s.bound := by
    rw [List.length_append, List.length_cons] at short
    exact Nat.lt_succ_of_le (by omega)
  have head : (chains i).head?.map Prod.fst = some y.1 := by
    rw [shape]
    rfl
  rw [head, if_neg (Option.some_ne_none _), bind_ok (load_ok cell), run_ite, key_eq,
    if_neg (cmp_of_away (away y List.mem_cons_self)), bound_bind]
  exact removeBehind_some holds low [] shape s.bound bounded (fun z inside => away z (List.mem_cons_of_mem _ inside)) found

/-- The visible item goes; where it was the first one, only an empty chain is in order
afterwards. -/
theorem hashRemoveItem_some (holds : Holds cb s chains good) (key : K) {x : Entry K V}
    (old : visible cb s.vars.table.length chains key = some x) :
    ∃ next front back, hashRemoveItem cb key s = .ok (some x.2.2, next) ∧
      chains (place cb s.vars.table.length key) = front ++ x :: back ∧ (∀ y ∈ front, hit cb key y = false) ∧
      hit cb key x = true ∧
      Holds cb next (Function.update chains (place cb s.vars.table.length key) (front ++ back))
        (Function.update good (place cb s.vars.table.length key)
          (if front = [] then back = [] else good (place cb s.vars.table.length key))) ∧
      Leaves (s.vars.elnum - 1) s.vars.finished s next := by
  rw [visible] at old
  generalize placed : place cb s.vars.table.length key = i at old
  rcases List.find?_eq_some_iff_append.mp old with ⟨found, front, back, shape, before⟩
  have away : ∀ y ∈ front, hit cb key y = false := fun y inside => Bool.not_eq_true' .. |>.mp (before y inside)
  cases front with
  | nil =>
      rcases hashRemoveItem_first holds key placed shape found with ⟨next, run, after, leaves⟩
      refine ⟨next, [], back, run, shape, away, found, ?_, leaves⟩
      rw [if_pos rfl]
      exact after
  | cons y mid =>
      rcases hashRemoveItem_later holds key placed shape away found with ⟨next, run, after, leaves⟩
      refine ⟨next, y :: mid, back, run, shape, away, found, ?_, leaves⟩
      rw [if_neg (List.cons_ne_nil _ _), Function.update_eq_self]
      exact after

/-- The links of a stored item are what `hash_delete_pair` needs. -/
def Linked (good : Nat → Prop) (i : Nat) (front : List (Entry K V)) : Prop := front = [] → good i

/-- An item is taken out of its chain, and its memory is still there. -/
def Unlinked (cb : Callbacks K V) (s : HashStore K V) (chains : Chains K V) (good : Nat → Prop) (i : Nat) (x : Entry K V)
    (rest : List (Entry K V)) : Prop :=
  ∃ (heap : Heap (MnHashItem K V)) (table : List Ptr) (m : MnHashItem K V),
    unlinkItem (some x.1) s = .ok ((), ⟨heap, { s.vars with table := table }, s.tick⟩) ∧
    table.length = s.vars.table.length ∧ heap.lookup x.1 = some m ∧ pairOf m = x.2 ∧
    Holds cb ⟨heap.erase x.1, { s.vars with table := table }, s.tick⟩ (Function.update chains i rest) good

/-- What the memory of a first item says when its slot is in order. -/
theorem Holds.first_cell (holds : Holds cb s chains good) (low : i < s.vars.table.length) {x : Entry K V}
    (shape : chains i = x :: back) (fine : good i) :
    ∃ n, s.heap.lookup x.1 = some n ∧ pairOf n = x.2 ∧ n.prev = none ∧ n.bucket = some (s.vars.data, i) ∧
      n.next = back.head?.map Prod.fst := by
  have top : x ∈ (chains i).head? := by
    rw [shape]
    exact rfl
  rcases holds.first_fine low fine top with ⟨n, cell, prev, bucket⟩
  have seg := holds.seg low
  rw [shape] at seg
  rcases seg with ⟨-, m, cell', pair, -, tail⟩
  obtain rfl : n = m := Option.some.inj (cell.symm.trans cell')
  exact ⟨n, cell, pair, prev, bucket, tail.head_eq⟩

/-- What the item behind the first one learns when it gets its place. -/
def tellNext (next : Ptr) (bucket : Option Slot) : HashProg K V Unit := do
  if next ≠ none then
    update next fun x => { x with prev := none }
    update next fun x => { x with bucket := bucket }

theorem tellNext_none (bucket : Option Slot) : tellNext none bucket s = .ok ((), s) := by
  rw [tellNext, run_ite]
  exact if_neg (not_not.mpr rfl)

theorem tellNext_some {a : Addr} (bucket : Option Slot) (cell : s.heap.lookup a = some n) :
    tellNext (some a) bucket s =
      .ok ((), { s with heap := s.heap.insert a { n with prev := none, bucket := bucket } }) := by
  rw [tellNext, run_ite, if_pos (Option.some_ne_none _), bind_ok (update_ok _ cell)]
  apply (update_ok _ (Finmap.lookup_insert _)).trans
  rw [Finmap.insert_insert]

/-- The slot of the first item is written, and the next item is still to be told. -/
theorem unlinkItem_first {a : Addr} (low : i < s.vars.table.length) (cell : s.heap.lookup a = some n)
    (prev : n.prev = none) (bucket : n.bucket = some (s.vars.data, i)) :
    unlinkItem (some a) s = tellNext n.next (some (s.vars.data, i))
      { s with vars := { s.vars with table := s.vars.table.set i n.next } } := by
  let cleared : HashStore K V := { s with vars := { s.vars with table := s.vars.table.set i n.next } }
  have checked : check n.bucket.isSome s = .ok ((), s) := by
    rw [bucket]
    rfl
  have written : writeSlot (some (s.vars.data, i)) n.next s = .ok ((), cleared) := writeSlot_ok low _
  have loaded : load (some a) cleared = .ok (n, cleared) := load_ok cell
  rw [unlinkItem, bind_ok (load_ok cell), run_ite, if_neg (not_not.mpr prev), bind_ok checked, bucket]
  apply (bind_ok written _).trans
  apply (bind_ok loaded _).trans
  rw [prev, bucket]
  rfl

/-- The only item goes: the slot is empty. -/
theorem unlinkItem_only (holds : Holds cb s chains good) (low : i < s.vars.table.length) {x : Entry K V}
    (shape : chains i = [x]) (fine : good i) : Unlinked cb s chains good i x [] := by
  rcases holds.first_cell low shape fine with ⟨n, cell, pair, prev, bucket, forth⟩
  have unchanged : Function.update good i (good i) = good := Function.update_eq_self i good
  refine ⟨s.heap, s.vars.table.set i n.next, n, ?_, List.length_set .., cell, pair, ?_⟩
  · rw [unlinkItem_first low cell prev bucket, forth]
    exact tellNext_none _
  · have shape' : chains i = [] ++ x :: [] := shape
    rw [← unchanged, forth]
    refine holds.drop low shape' cell rfl rfl (by simp) (by simp) (fun c away _ _ => ?_) (by simp)
    exact Finmap.lookup_erase_ne away

/-- The first item goes: the slot leads to the next one, which learns of it. -/
theorem unlinkItem_next (holds : Holds cb s chains good) (low : i < s.vars.table.length) {x z : Entry K V}
    (shape : chains i = x :: z :: back) (fine : good i) : Unlinked cb s chains good i x (z :: back) := by
  rcases holds.first_cell low shape fine with ⟨n, cell, pair, prev, bucket, forth⟩
  have unchanged : Function.update good i (good i) = good := Function.update_eq_self i good
  have next_eq : n.next = some z.1 := forth
  rcases holds.second_cell low shape with ⟨k, cell', apart⟩
  let last : MnHashItem K V := { k with prev := none, bucket := some (s.vars.data, i) }
  refine ⟨s.heap.insert z.1 last, s.vars.table.set i n.next, n, ?_, List.length_set .., ?_, pair, ?_⟩
  · rw [unlinkItem_first low cell prev bucket, next_eq]
    exact tellNext_some _ cell'
  · rw [Finmap.lookup_insert_of_ne _ apart.symm, cell]
  · have shape' : chains i = [] ++ x :: z :: back := shape
    rw [← unchanged, forth]
    refine holds.drop low shape' cell rfl rfl (by simp) (fun w top m known => ?_) (fun c away _ top => ?_)
      fun _ w top => ?_
    · obtain rfl : z = w := Option.some.inj top
      obtain rfl : k = m := Option.some.inj (cell'.symm.trans known)
      exact ⟨some (s.vars.data, i), (Finmap.lookup_erase_ne apart).trans (Finmap.lookup_insert _)⟩
    · have other : c ≠ z.1 := fun same => top (congrArg some same.symm)
      exact (Finmap.lookup_erase_ne away).trans (Finmap.lookup_insert_of_ne _ other)
    · obtain rfl : z = w := Option.some.inj top
      exact ⟨last, (Finmap.lookup_erase_ne apart).trans (Finmap.lookup_insert _), rfl, rfl⟩

/-- An item behind another one goes: its neighbours are linked with each other. -/
theorem unlinkItem_behind (holds : Holds cb s chains good) (low : i < s.vars.table.length) {x : Entry K V}
    (shape : chains i = front ++ x :: back) (behind : front ≠ []) :
    Unlinked cb s chains good i x (front ++ back) := by
  have there : x ∈ chains i := shape ▸ List.mem_append_right _ List.mem_cons_self
  rcases holds.cell low there with ⟨n, cell, pair⟩
  rcases bypass_ok holds low shape cell behind with ⟨heap, heap', prev, first, kept, second, same, kept', after⟩
  refine ⟨heap', s.vars.table, n, ?_, rfl, kept', pair, after⟩
  have loaded : load (some x.1) { s with heap := heap } = .ok (n, { s with heap := heap }) := load_ok kept
  rw [unlinkItem, bind_ok (load_ok cell), run_ite, if_pos prev, bind_ok first]
  apply (bind_ok loaded _).trans
  rw [run_ite]
  by_cases last : n.next = none
  · obtain rfl := same last
    exact if_neg (not_not.mpr last)
  · rw [if_pos last, bind_ok (second last), run_ite, if_neg prev]
    rfl

/-- Its neighbours, or the slot and its successor, are linked with each other. -/
theorem unlinkItem_ok (holds : Holds cb s chains good) (low : i < s.vars.table.length) {x : Entry K V}
    (shape : chains i = front ++ x :: back) (linked : Linked good i front) :
    Unlinked cb s chains good i x (front ++ back) := by
  by_cases behind : front = []
  · subst behind
    cases back with
    | nil => exact unlinkItem_only holds low shape (linked rfl)
    | cons z rest => exact unlinkItem_next holds low shape (linked rfl)
  · exact unlinkItem_behind holds low shape behind

theorem hashDeletePairNoFini_ok (holds : Holds cb s chains good) (low : i < s.vars.table.length) {x : Entry K V}
    (shape : chains i = front ++ x :: back) (linked : Linked good i front) :
    ∃ next, hashDeletePairNoFini (some x.1) s = .ok ((), next) ∧
      Holds cb next (Function.update chains i (front ++ back)) good ∧
      Leaves (s.vars.elnum - 1) s.vars.finished s next := by
  rcases unlinkItem_ok holds low shape linked with ⟨heap, table, m, run, length, cell, pair, after⟩
  refine ⟨_, ?_, after.counted (s.vars.elnum - 1), rfl, length, rfl, rfl⟩
  rw [hashDeletePairNoFini, bind_ok run]
  exact (bind_ok (free_ok cell) _).trans rfl

theorem hashDeletePair_ok (holds : Holds cb s chains good) (low : i < s.vars.table.length) {x : Entry K V}
    (shape : chains i = front ++ x :: back) (linked : Linked good i front) :
    ∃ next, hashDeletePair cb (some x.1) s = .ok ((), next) ∧
      Holds cb next (Function.update chains i (front ++ back)) good ∧
      Leaves (s.vars.elnum - 1) (finish cb s.vars.finished x.2) s next := by
  rcases unlinkItem_ok holds low shape linked with ⟨heap, table, m, run, length, cell, pair, after⟩
  let mid : HashStore K V := ⟨heap, { s.vars with table := table }, s.tick⟩
  rcases callFini_ok cb m.key m.value mid with ⟨res, called⟩
  have finished : finish cb s.vars.finished (m.key, m.value) = finish cb s.vars.finished x.2 := by
    rw [← pair]
    rfl
  let next : HashStore K V :=
    ⟨heap.erase x.1, ⟨s.vars.data, table, s.vars.elnum - 1, finish cb s.vars.finished (m.key, m.value)⟩, s.tick⟩
  refine ⟨next, ?_, ?_, rfl, length, rfl, finished⟩
  · rw [hashDeletePair, bind_ok run]
    apply (bind_ok (load_ok cell) _).trans
    apply (bind_ok called _).trans
    exact (bind_ok (free_ok (s := logged cb mid (m.key, m.value)) cell) _).trans rfl
  · exact ⟨after.nonempty, after.slot, after.bucket, after.placed, after.once, after.apart⟩

end MnCommon.Hash
