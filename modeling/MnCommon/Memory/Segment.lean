import MnCommon.Memory.Chain

/-! Doubly linked lists without a tail pointer, whose records carry labels. The
back link of the first record may be out of order. -/

namespace MnCommon.Memory

namespace Links

variable {N L : Type} (K : Links N) (label : N → L)

/-- The records from `p` on. With `strict` the first one points back at `before`;
every other one points back at the record in front of it. -/
def Segment (h : Heap N) : Prop → Ptr → Ptr → List (Addr × L) → Prop
  | _, _, p, [] => p = none
  | strict, before, p, (a, l) :: rest =>
      p = some a ∧ ∃ n, h.lookup a = some n ∧ label n = l ∧ (strict → K.prev n = before) ∧
        Segment h True (some a) (K.next n) rest

variable {K label} {h next : Heap N} {strict : Prop} {before p : Ptr} {xs front back : List (Addr × L)}
  {a : Addr} {l : L} {n : N}

theorem Segment.head_eq (seg : K.Segment label h strict before p xs) : p = xs.head?.map Prod.fst := by
  cases xs with
  | nil => exact seg
  | cons x rest => exact seg.1

theorem Segment.frame (seg : K.Segment label h strict before p xs)
    (same : ∀ x ∈ xs, next.lookup x.1 = h.lookup x.1) : K.Segment label next strict before p xs := by
  induction xs generalizing strict before p with
  | nil => exact seg
  | cons x rest ih =>
      rcases seg with ⟨here, n, cell, equal, back, tail⟩
      refine ⟨here, n, ?_, equal, back, ih tail fun y inside => same y (List.mem_cons_of_mem _ inside)⟩
      rw [same x List.mem_cons_self, cell]

theorem Segment.cell (seg : K.Segment label h strict before p xs) (member : (a, l) ∈ xs) :
    ∃ n, h.lookup a = some n ∧ label n = l := by
  induction xs generalizing strict before p with
  | nil => exact absurd member List.not_mem_nil
  | cons x rest ih =>
      rcases seg with ⟨-, n, cell, equal, -, tail⟩
      rcases List.mem_cons.mp member with rfl | inside
      · exact ⟨n, cell, equal⟩
      · exact ih tail inside

/-- The back link of the first record is all that `strict` speaks of. -/
theorem Segment.weaken (seg : K.Segment label h strict before p xs) :
    K.Segment label h False none p xs := by
  cases xs with
  | nil => exact seg
  | cons x rest =>
      rcases seg with ⟨here, n, cell, equal, -, tail⟩
      exact ⟨here, n, cell, equal, False.elim, tail⟩

theorem Segment.mono {weaker : Prop} (implies : weaker → strict) (seg : K.Segment label h strict before p xs) :
    K.Segment label h weaker before p xs := by
  cases xs with
  | nil => exact seg
  | cons x rest =>
      rcases seg with ⟨here, n, cell, equal, back, tail⟩
      exact ⟨here, n, cell, equal, fun fine => back (implies fine), tail⟩

/-- The back link of the first record, where it is in order. -/
theorem Segment.strengthen (seg : K.Segment label h False none p xs)
    (right : strict → ∀ x ∈ xs.head?, ∀ n, h.lookup x.1 = some n → K.prev n = before) :
    K.Segment label h strict before p xs := by
  cases xs with
  | nil => exact seg
  | cons x rest =>
      rcases seg with ⟨here, n, cell, equal, -, tail⟩
      exact ⟨here, n, cell, equal, fun fine => right fine x rfl n cell, tail⟩

/-- The record in front of a place in the list. -/
def lastOf (before : Ptr) (front : List (Addr × L)) : Ptr :=
  (front.getLast?.map Prod.fst).or before

@[simp] theorem lastOf_nil (before : Ptr) : lastOf before ([] : List (Addr × L)) = before := rfl

@[simp] theorem lastOf_cons (before : Ptr) (x : Addr × L) (front : List (Addr × L)) :
    lastOf before (x :: front) = lastOf (some x.1) front := by
  cases front with
  | nil => rfl
  | cons y rest =>
      rw [lastOf, lastOf, List.getLast?_cons_cons]
      cases shape : (y :: rest).getLast? with
      | none => simp at shape
      | some z => rfl

theorem Segment.middle (seg : K.Segment label h strict before p (front ++ (a, l) :: back)) :
    ∃ n, h.lookup a = some n ∧ label n = l ∧ ((front ≠ [] ∨ strict) → K.prev n = lastOf before front) ∧
      K.Segment label h True (some a) (K.next n) back := by
  induction front generalizing strict before p with
  | nil =>
      rcases seg with ⟨-, n, cell, equal, link, tail⟩
      refine ⟨n, cell, equal, fun either => ?_, tail⟩
      rcases either with wrong | strict
      · exact absurd rfl wrong
      · exact link strict
  | cons x rest ih =>
      rcases seg with ⟨-, m, -, -, -, tail⟩
      rcases ih tail with ⟨n, cell, equal, link, behind⟩
      refine ⟨n, cell, equal, fun _ => ?_, behind⟩
      rw [lastOf_cons]
      by_cases inner : rest = []
      · exact link (.inr trivial)
      · exact link (.inl inner)

/-- Relabels one record. -/
theorem Segment.relabel (seg : K.Segment label h strict before p (front ++ (a, l) :: back))
    (distinct : ((front ++ (a, l) :: back).map Prod.fst).Nodup) {m : N} (cell : h.lookup a = some n)
    (prev : K.prev m = K.prev n) (forth : K.next m = K.next n) :
    K.Segment label (h.insert a m) strict before p (front ++ (a, label m) :: back) := by
  induction front generalizing strict before p with
  | nil =>
      rcases seg with ⟨here, n', cell', -, link, tail⟩
      obtain rfl : n = n' := Option.some.inj (cell.symm.trans cell')
      rcases List.nodup_cons.mp distinct with ⟨apart, -⟩
      refine ⟨here, m, Finmap.lookup_insert _, rfl, fun some => prev.trans (link some), ?_⟩
      rw [forth]
      refine tail.frame fun x inside => Finmap.lookup_insert_of_ne _ fun same => ?_
      exact apart (List.mem_map.mpr ⟨x, inside, same⟩)
  | cons x rest ih =>
      rcases seg with ⟨here, m', cell', equal, link, tail⟩
      rcases List.nodup_cons.mp distinct with ⟨apart, distinct⟩
      have other : x.1 ≠ a := by
        rintro rfl
        exact apart (by simp)
      refine ⟨here, m', ?_, equal, link, ih tail distinct⟩
      rw [Finmap.lookup_insert_of_ne _ other, cell']

/-- Points the first record back at another one. -/
theorem Segment.relink (seg : K.Segment label h strict before p xs) (after : Ptr)
    (head : ∀ x ∈ xs.head?, ∀ n, h.lookup x.1 = some n → ∃ m, next.lookup x.1 = some m ∧
      label m = label n ∧ K.next m = K.next n ∧ K.prev m = after)
    (others : ∀ x ∈ xs.tail, next.lookup x.1 = h.lookup x.1) :
    K.Segment label next True after p xs := by
  cases xs with
  | nil => exact seg
  | cons x rest =>
      rcases seg with ⟨here, n, cell, equal, -, tail⟩
      rcases head x rfl n cell with ⟨m, found, same, forth, link⟩
      refine ⟨here, m, found, same.trans equal, fun _ => link, ?_⟩
      rw [forth]
      exact tail.frame others

/-- Takes one record out: its neighbours point past it. -/
theorem Segment.unlink (seg : K.Segment label h strict before p (front ++ (a, l) :: back))
    (distinct : ((front ++ (a, l) :: back).map Prod.fst).Nodup) (cell : h.lookup a = some n)
    (left : ∀ x ∈ front.getLast?, ∀ m, h.lookup x.1 = some m → ∃ m', next.lookup x.1 = some m' ∧
      label m' = label m ∧ K.prev m' = K.prev m ∧ K.next m' = K.next n)
    (right : ∀ x ∈ back.head?, ∀ m, h.lookup x.1 = some m → ∃ m', next.lookup x.1 = some m' ∧
      label m' = label m ∧ K.next m' = K.next m ∧ ((front ≠ [] ∨ strict) → K.prev m' = K.prev n))
    (others : ∀ x ∈ front ++ back, front.getLast? ≠ some x → back.head? ≠ some x →
      next.lookup x.1 = h.lookup x.1) :
    K.Segment label next strict before (if front = [] then K.next n else p) (front ++ back) := by
  induction front generalizing strict before p with
  | nil =>
      rcases seg with ⟨-, n', cell', -, link, tail⟩
      obtain rfl : n = n' := Option.some.inj (cell.symm.trans cell')
      rw [if_pos rfl, List.nil_append]
      cases back with
      | nil => exact tail
      | cons y rest =>
          rcases tail with ⟨here, m, found, equal, -, behind⟩
          rcases right y rfl m found with ⟨m', found', same, forth, prev⟩
          refine ⟨here, m', found', same.trans equal, fun some => (prev (.inr some)).trans (link some), ?_⟩
          rw [forth]
          refine behind.frame fun x inside => others x (List.mem_cons_of_mem _ inside) (by simp) fun first => ?_
          obtain rfl : y = x := Option.some.inj first
          have apart := (List.nodup_cons.mp (List.nodup_cons.mp distinct).2).1
          exact apart (List.mem_map_of_mem inside)
  | cons x rest ih =>
      rcases seg with ⟨here, m, found, equal, link, tail⟩
      rcases List.nodup_cons.mp distinct with ⟨apart, distinct⟩
      rw [if_neg (List.cons_ne_nil _ _), List.cons_append]
      have unlike : back.head? ≠ some x := by
        intro first
        have inside := List.mem_of_head? first
        exact apart (List.mem_map_of_mem (by simp [inside]))
      have further : K.Segment label next True (some x.1) (if rest = [] then K.next n else K.next m)
          (rest ++ back) := by
        refine ih tail distinct (fun y last => left y ?_) (fun y first k known => ?_) fun y inside last first =>
          others y (List.mem_cons_of_mem _ inside) (fun same => ?_) first
        · cases rest with
          | nil => simp at last
          | cons z rest => rw [List.getLast?_cons_cons]; exact last
        · rcases right y first k known with ⟨k', found', same, forth, prev⟩
          exact ⟨k', found', same, forth, fun _ => prev (.inl (List.cons_ne_nil _ _))⟩
        · cases rest with
          | nil =>
              obtain rfl : x = y := by simpa using same
              exact apart (List.mem_map_of_mem (by simpa using Or.inr inside))
          | cons z rest => exact last (by rwa [List.getLast?_cons_cons] at same)
      by_cases only : rest = []
      · subst only
        rcases left x rfl m found with ⟨m', found', same, prev, forth⟩
        refine ⟨here, m', found', same.trans equal, fun some => prev.trans (link some), ?_⟩
        rw [forth]
        exact further
      · have kept : next.lookup x.1 = some m := by
          rw [others x List.mem_cons_self (fun last => ?_) unlike, found]
          cases rest with
          | nil => exact only rfl
          | cons z rest =>
              rw [List.getLast?_cons_cons] at last
              have inside := List.mem_of_getLast? last
              exact apart (List.mem_map_of_mem (List.mem_append_left _ inside))
        rw [if_neg only] at further
        exact ⟨here, m, kept, equal, link, further⟩

theorem Segment.walk (seg : K.Segment label h strict before p xs) (fuel : Nat) (enough : xs.length ≤ fuel) :
    Links.walk K.next h fuel p = xs.map Prod.fst := by
  induction xs generalizing strict before p fuel with
  | nil =>
      obtain rfl : p = none := seg
      cases fuel with
      | zero => rfl
      | succ fuel => rfl
  | cons x rest ih =>
      rcases seg with ⟨rfl, n, cell, -, -, tail⟩
      cases fuel with
      | zero => exact absurd enough (Nat.not_succ_le_zero _)
      | succ fuel =>
          rw [Links.walk, cell, Option.bind_some, ih tail fuel (Nat.le_of_succ_le_succ enough), List.map_cons]

/-- There are at least as many records as a list of different ones has. -/
theorem Segment.short (seg : K.Segment label h strict before p xs) (distinct : (xs.map Prod.fst).Nodup) :
    xs.length ≤ h.keys.card := by
  have inside : (xs.map Prod.fst).toFinset ⊆ h.keys := by
    intro a member
    rcases List.mem_map.mp (List.mem_toFinset.mp member) with ⟨⟨b, l⟩, there, rfl⟩
    rcases seg.cell there with ⟨n, cell, -⟩
    exact Finmap.mem_keys.mpr (Finmap.mem_of_lookup_eq_some cell)
  calc xs.length = (xs.map Prod.fst).toFinset.card := by
        rw [List.toFinset_card_of_nodup distinct, List.length_map]
    _ ≤ h.keys.card := Finset.card_le_card inside

end Links

end MnCommon.Memory
