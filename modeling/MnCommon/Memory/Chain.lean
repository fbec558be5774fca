import MnCommon.Memory.Heap

/-! Doubly linked lists on a heap. -/

namespace MnCommon.Memory

/-- Where a record keeps the two links of a list. -/
structure Links (N : Type) where
  prev : N → Ptr
  next : N → Ptr

namespace Links

variable {N : Type} (K : Links N)

def pair (h : Heap N) (a : Addr) : Option (Ptr × Ptr) :=
  (h.lookup a).map fun n => (K.prev n, K.next n)

/-- Every record of the list points at its two neighbours in it. -/
structure Chain (h : Heap N) (head tail : Ptr) (xs : List Addr) : Prop where
  head_eq : head = xs.head?
  tail_eq : tail = xs.getLast?
  linked : ∀ front a back, xs = front ++ a :: back →
    K.pair h a = some (front.getLast?, back.head?)
  distinct : xs.Nodup

/-- The records met by following one kind of link. -/
def walk (link : N → Ptr) (h : Heap N) : Nat → Ptr → List Addr
  | _, none => []
  | 0, some _ => []
  | fuel + 1, some a => a :: walk link h fuel ((h.lookup a).bind link)

private theorem split_append {A : Type} {xs ys front back : List A} {b : A}
    (whole : xs ++ ys = front ++ b :: back) :
    (∃ rest, xs = front ++ b :: rest ∧ back = rest ++ ys) ∨
      ∃ rest, ys = rest ++ b :: back ∧ front = xs ++ rest := by
  rcases List.append_eq_append_iff.mp whole with ⟨rest, same, right⟩ | ⟨rest, same, right⟩
  · exact Or.inr ⟨rest, right, same⟩
  · cases rest with
    | nil => exact Or.inr ⟨[], by simpa using right.symm, by simpa using same.symm⟩
    | cons c rest =>
        obtain ⟨rfl, rfl⟩ := List.cons.inj right
        exact Or.inl ⟨rest, same, rfl⟩

variable {K}

theorem pair_eq {h : Heap N} {a : Addr} {n : N} (cell : h.lookup a = some n) :
    K.pair h a = some (K.prev n, K.next n) := by
  rw [pair, cell, Option.map_some]

theorem Chain.empty (h : Heap N) : K.Chain h none none [] :=
  ⟨rfl, rfl, by simp, List.nodup_nil⟩

theorem Chain.frame {h next : Heap N} {head tail : Ptr} {xs : List Addr}
    (chain : K.Chain h head tail xs) (same : ∀ a ∈ xs, K.pair next a = K.pair h a) :
    K.Chain next head tail xs := by
  refine { chain with linked := ?_ }
  rintro front a back rfl
  rw [same a (by simp)]
  exact chain.linked front a back rfl

/-- Exchanges the middle of a list. Only the two records at its borders and
those of the new middle are written. -/
theorem Chain.splice {h : Heap N} {head tail : Ptr} (next : Heap N)
    (front old new back : List Addr)
    (chain : K.Chain h head tail (front ++ (old ++ back)))
    (distinct : (front ++ (new ++ back)).Nodup)
    (inner : ∀ pre b post, new = pre ++ b :: post →
      K.pair next b = some ((front ++ pre).getLast?, (post ++ back).head?))
    (left : ∀ b l, front.getLast? = some b → K.pair h b = some l →
      K.pair next b = some (l.1, (new ++ back).head?))
    (right : ∀ b l, back.head? = some b → K.pair h b = some l →
      K.pair next b = some ((front ++ new).getLast?, l.2))
    (same : ∀ b ∈ front ++ back, front.getLast? ≠ some b → back.head? ≠ some b →
      K.pair next b = K.pair h b) :
    K.Chain next (front ++ (new ++ back)).head? (front ++ (new ++ back)).getLast?
      (front ++ (new ++ back)) := by
  refine ⟨rfl, rfl, ?_, distinct⟩
  intro before b after whole
  have apart := distinct
  rcases split_append whole with ⟨rest, rfl, rfl⟩ | ⟨rest, tail, rfl⟩
  · have was := chain.linked before b (rest ++ (old ++ back)) (by simp)
    cases rest with
    | nil =>
        rw [left b _ (by simp) was]
        simp
    | cons c rest =>
        have notLast : (before ++ b :: c :: rest).getLast? ≠ some b := by
          intro last
          rw [List.getLast?_append_cons, List.getLast?_cons_cons] at last
          have member := List.mem_of_getLast? last
          simp only [List.append_assoc, List.cons_append] at apart
          rw [List.nodup_middle, List.nodup_cons] at apart
          exact apart.1 (by simp only [List.mem_append, List.mem_cons] at member ⊢; tauto)
        have notHead : back.head? ≠ some b := by
          intro first
          have member := List.mem_of_head? first
          rw [List.append_assoc, List.cons_append, List.nodup_middle, List.nodup_cons] at apart
          exact apart.1 (by simp [member])
        rw [same b (by simp) notLast notHead, was]
        simp
  · rcases split_append tail with ⟨post, rfl, rfl⟩ | ⟨pre, rfl, rfl⟩
    · exact inner rest b post rfl
    · have was := chain.linked (front ++ (old ++ pre)) b after (by simp)
      cases pre with
      | nil =>
          rw [right b _ (by simp) was]
          simp
      | cons c pre =>
          have notHead : (c :: pre ++ b :: after).head? ≠ some b := by
            intro first
            have here : c = b := by simpa using first
            rw [here] at apart
            simp [List.nodup_append] at apart
          have notLast : front.getLast? ≠ some b := by
            intro last
            have member := List.mem_of_getLast? last
            rw [List.nodup_append] at apart
            exact apart.2.2 b member b (by simp) rfl
          rw [same b (by simp) notLast notHead, was]
          simp [List.getLast?_cons]

/-- A record behind the last one. -/
theorem Chain.snoc {h next : Heap N} {head tail : Ptr} {xs : List Addr} {a : Addr}
    (chain : K.Chain h head tail xs) (new : a ∉ xs) (here : K.pair next a = some (xs.getLast?, none))
    (last : ∀ b l, xs.getLast? = some b → K.pair h b = some l → K.pair next b = some (l.1, some a))
    (same : ∀ b ∈ xs, xs.getLast? ≠ some b → K.pair next b = K.pair h b) :
    K.Chain next (xs ++ [a]).head? (some a) (xs ++ [a]) := by
  have whole : K.Chain h head tail (xs ++ ([] ++ [])) := by simpa using chain
  have distinct : (xs ++ ([a] ++ [])).Nodup := by
    rw [List.append_nil, List.nodup_append]
    refine ⟨chain.distinct, List.nodup_singleton a, fun b inside c only equal => ?_⟩
    exact new (List.mem_singleton.mp only ▸ equal ▸ inside)
  have longer := whole.splice next xs [] [a] [] distinct ?_ last nofun ?_
  · simpa using longer
  · intro pre b post split
    cases pre with
    | nil =>
        obtain ⟨rfl, rfl⟩ := List.cons.inj split
        simpa using here
    | cons c pre => simp at split
  · intro b inside notLast _
    exact same b (by simpa using inside) notLast

/-- The front of a list whose last record is made to point at none. -/
theorem Chain.cut {h next : Heap N} {head tail : Ptr} {front back : List Addr}
    (chain : K.Chain h head tail (front ++ back))
    (last : ∀ b l, front.getLast? = some b → K.pair h b = some l → K.pair next b = some (l.1, none))
    (same : ∀ b ∈ front, front.getLast? ≠ some b → K.pair next b = K.pair h b) :
    K.Chain next front.head? front.getLast? front := by
  have whole : K.Chain h head tail (front ++ (back ++ [])) := by simpa using chain
  have distinct : (front ++ ([] ++ [])).Nodup := by
    rw [List.append_nil, List.append_nil]
    exact (List.nodup_append.mp chain.distinct).1
  have shorter := whole.splice next front back [] [] distinct (by simp) last nofun ?_
  · simpa using shorter
  · intro b inside notLast _
    exact same b (by simpa using inside) notLast

/-- The neighbours of a record of the list are other records of it. -/
theorem Chain.around {h : Heap N} {head tail : Ptr} {xs : List Addr} {a : Addr} {n : N}
    (chain : K.Chain h head tail xs) (member : a ∈ xs) (cell : h.lookup a = some n) :
    (∀ b, K.prev n = some b → b ∈ xs ∧ b ≠ a) ∧ ∀ b, K.next n = some b → b ∈ xs ∧ b ≠ a := by
  obtain ⟨front, back, rfl⟩ := List.append_of_mem member
  have here := chain.linked front a back rfl
  rw [pair_eq cell] at here
  obtain ⟨prev, next⟩ := Prod.mk.inj (Option.some.inj here)
  have apart := chain.distinct
  simp only [List.nodup_middle, List.nodup_cons, List.mem_append, not_or] at apart
  constructor
  · intro b edge
    have inside := List.mem_of_getLast? (prev.symm.trans edge)
    exact ⟨by simp [inside], fun same => apart.1.1 (same ▸ inside)⟩
  · intro b edge
    have inside := List.mem_of_head? (next.symm.trans edge)
    exact ⟨by simp [inside], fun same => apart.1.2 (same ▸ inside)⟩

theorem Chain.cell {h : Heap N} {head tail : Ptr} {xs : List Addr} {a : Addr}
    (chain : K.Chain h head tail xs) (member : a ∈ xs) : ∃ n, h.lookup a = some n := by
  obtain ⟨front, back, rfl⟩ := List.append_of_mem member
  have here := chain.linked front a back rfl
  rw [pair, Option.map_eq_some_iff] at here
  obtain ⟨n, cell, -⟩ := here
  exact ⟨n, cell⟩

/-- There are at least as many records as a list has. -/
theorem Chain.short {h : Heap N} {head tail : Ptr} {xs : List Addr} (chain : K.Chain h head tail xs) :
    xs.length ≤ h.keys.card := by
  have inside : xs.toFinset ⊆ h.keys := by
    intro a member
    rcases chain.cell (List.mem_toFinset.mp member) with ⟨n, cell⟩
    exact Finmap.mem_keys.mpr (Finmap.mem_of_lookup_eq_some cell)
  calc xs.length = xs.toFinset.card := (List.toFinset_card_of_nodup chain.distinct).symm
    _ ≤ h.keys.card := Finset.card_le_card inside

theorem Chain.walk_next {h : Heap N} {head tail : Ptr} {front back : List Addr}
    (chain : K.Chain h head tail (front ++ back)) (fuel : Nat) (enough : back.length ≤ fuel) :
    walk K.next h fuel back.head? = back := by
  induction back generalizing front fuel with
  | nil => cases fuel <;> rfl
  | cons a back ih =>
      cases fuel with
      | zero => simp at enough
      | succ fuel =>
          have here := chain.linked front a back rfl
          rw [pair, Option.map_eq_some_iff] at here
          obtain ⟨n, cell, links⟩ := here
          have next : K.next n = back.head? := congrArg Prod.snd links
          have further : K.Chain h head tail ((front ++ [a]) ++ back) := by simpa using chain
          have rest := ih further fuel (by simpa using enough)
          rw [List.head?_cons, walk, cell, Option.bind_some, next, rest]

theorem Chain.walk_prev {h : Heap N} {head tail : Ptr} {front back : List Addr}
    (chain : K.Chain h head tail (front.reverse ++ back)) (fuel : Nat)
    (enough : front.length ≤ fuel) :
    walk K.prev h fuel front.head? = front := by
  induction front generalizing back fuel with
  | nil => cases fuel <;> rfl
  | cons a front ih =>
      cases fuel with
      | zero => simp at enough
      | succ fuel =>
          have here := chain.linked front.reverse a back (by simp)
          rw [pair, Option.map_eq_some_iff] at here
          obtain ⟨n, cell, links⟩ := here
          have prev : K.prev n = front.head? := by
            rw [← List.getLast?_reverse]
            exact congrArg Prod.fst links
          have further : K.Chain h head tail (front.reverse ++ (a :: back)) := by simpa using chain
          have rest := ih further fuel (by simpa using enough)
          rw [List.head?_cons, walk, cell, Option.bind_some, prev, rest]

/-- The links of both kinds lead through the whole list. -/
theorem Chain.walks {h : Heap N} {head tail : Ptr} {xs : List Addr}
    (chain : K.Chain h head tail xs) (fuel : Nat) (enough : xs.length ≤ fuel) :
    walk K.next h fuel head = xs ∧ walk K.prev h fuel tail = xs.reverse := by
  constructor
  · rw [chain.head_eq]
    have whole : K.Chain h head tail ([] ++ xs) := chain
    exact whole.walk_next fuel enough
  · have reversed : K.Chain h head tail (xs.reverse.reverse ++ []) := by simpa using chain
    have back := reversed.walk_prev fuel (by simpa using enough)
    rwa [List.head?_reverse, ← chain.tail_eq] at back

end Links

end MnCommon.Memory
