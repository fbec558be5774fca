import MnCommon.Memory.Chain

/-! Lists on a heap that are followed along one kind of link. -/

namespace MnCommon.Memory

/-- The link that each record holds; `none` where there is no record. -/
abbrev Wiring := Addr → Option Ptr

/-- One kind of link of the records of a heap. -/
def wiring {N : Type} (link : N → Ptr) (h : Heap N) : Wiring := fun a => (h.lookup a).map link

/-- The way from `p` leads over the records of the list to `q`. -/
def Strand (w : Wiring) : Ptr → List Addr → Ptr → Prop
  | p, [], q => p = q
  | p, a :: rest, q => p = some a ∧ ∃ further, w a = some further ∧ Strand w further rest q

variable {N : Type} {w v : Wiring} {p q : Ptr} {xs ys : List Addr} {a : Addr} {h : Heap N} {link : N → Ptr} {n : N}

theorem wiring_of_lookup (cell : h.lookup a = some n) : wiring link h a = some (link n) := by
  rw [wiring, cell, Option.map_some]

theorem lookup_of_wiring (known : wiring link h a = some p) : ∃ n, h.lookup a = some n ∧ link n = p :=
  Option.map_eq_some_iff.mp known

/-- A record is overwritten by one with another link. -/
theorem wiring_insert (link : N → Ptr) (h : Heap N) (a : Addr) (n : N) :
    wiring link (h.insert a n) = Function.update (wiring link h) a (some (link n)) := by
  funext b
  by_cases here : b = a
  · subst here
    rw [Function.update_self, wiring, Finmap.lookup_insert, Option.map_some]
  · rw [Function.update_of_ne here, wiring, Finmap.lookup_insert_of_ne _ here, wiring]

theorem known_update (known : ∃ p, w a = some p) (b : Addr) (further : Ptr) :
    ∃ p, Function.update w b (some further) a = some p := by
  by_cases here : a = b
  · exact ⟨further, by rw [here, Function.update_self]⟩
  · rwa [Function.update_of_ne here]

theorem strand_append : Strand w p (xs ++ ys) q ↔ ∃ middle, Strand w p xs middle ∧ Strand w middle ys q := by
  induction xs generalizing p with
  | nil =>
      constructor
      · intro whole
        exact ⟨p, rfl, whole⟩
      · rintro ⟨middle, rfl, whole⟩
        exact whole
  | cons x xs ih =>
      constructor
      · rintro ⟨here, further, known, rest⟩
        rcases ih.mp rest with ⟨middle, first, second⟩
        exact ⟨middle, ⟨here, further, known, first⟩, second⟩
      · rintro ⟨middle, ⟨here, further, known, first⟩, second⟩
        exact ⟨here, further, known, ih.mpr ⟨middle, first, second⟩⟩

theorem strand_singleton : Strand w p [a] q ↔ p = some a ∧ w a = some q := by
  constructor
  · rintro ⟨here, further, known, rfl⟩
    exact ⟨here, known⟩
  · intro both
    exact ⟨both.1, q, both.2, rfl⟩

theorem Strand.frame (strand : Strand w p xs q) (same : ∀ a ∈ xs, v a = w a) : Strand v p xs q := by
  induction xs generalizing p with
  | nil => exact strand
  | cons x xs ih =>
      rcases strand with ⟨here, further, known, rest⟩
      refine ⟨here, further, ?_, ih rest fun a inside => same a (List.mem_cons_of_mem x inside)⟩
      rw [same x List.mem_cons_self, known]

/-- A link outside of the list may change. -/
theorem Strand.update (strand : Strand w p xs q) (outside : a ∉ xs) (further : Option Ptr) :
    Strand (Function.update w a further) p xs q := by
  apply strand.frame
  intro b inside
  exact Function.update_of_ne (fun same : b = a => outside (same ▸ inside)) _ _

theorem Strand.head (strand : Strand w p xs none) : p = xs.head? := by
  cases xs with
  | nil => exact strand
  | cons x xs => exact strand.1

theorem Strand.first (strand : Strand w p (a :: xs) q) : p = some a := strand.1

theorem Strand.known (strand : Strand w p xs q) (inside : a ∈ xs) : ∃ further, w a = some further := by
  induction xs generalizing p with
  | nil => exact absurd inside List.not_mem_nil
  | cons x xs ih =>
      rcases strand with ⟨-, further, known, rest⟩
      rcases List.mem_cons.mp inside with rfl | later
      · exact ⟨further, known⟩
      · exact ih rest later

/-- The way to a record of the list, its link and the way behind it. -/
theorem Strand.split (strand : Strand w p (xs ++ a :: ys) q) :
    ∃ further, w a = some further ∧ Strand w p xs (some a) ∧ Strand w further ys q := by
  rcases strand_append.mp strand with ⟨middle, first, rfl, further, known, rest⟩
  exact ⟨further, known, first, rest⟩

/-- The last record of a list gets another link. -/
theorem Strand.redirect (strand : Strand w p (xs ++ [a]) q) (outside : a ∉ xs) (r : Ptr) :
    Strand (Function.update w a (some r)) p (xs ++ [a]) r := by
  rcases strand_append.mp strand with ⟨middle, first, here, -⟩
  refine strand_append.mpr ⟨middle, first.update outside _, here, r, ?_, rfl⟩
  exact Function.update_self a (some r) w

/-- Following the links from record to record finds the list. -/
theorem Strand.walk (strand : Strand (wiring link h) p xs none) {fuel : Nat} (enough : xs.length ≤ fuel) :
    Links.walk link h fuel p = xs := by
  induction xs generalizing p fuel with
  | nil =>
      obtain rfl : p = none := strand
      cases fuel <;> rfl
  | cons x xs ih =>
      rcases strand with ⟨rfl, further, known, rest⟩
      rcases lookup_of_wiring known with ⟨n, cell, rfl⟩
      cases fuel with
      | zero => exact absurd enough (Nat.not_succ_le_zero _)
      | succ fuel =>
          rw [Links.walk, cell, Option.bind_some, ih rest (Nat.le_of_succ_le_succ enough)]

/-- Where the links find just one record, it leads to no other. -/
theorem link_of_walk (cell : h.lookup a = some n) (walk : Links.walk link h 2 (some a) = [a]) : link n = none := by
  rw [Links.walk, cell, Option.bind_some] at walk
  cases further : link n with
  | none => rfl
  | some b =>
      rw [further] at walk
      exact absurd (List.cons.inj walk).2 (List.cons_ne_nil _ _)

end MnCommon.Memory
