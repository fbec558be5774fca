import Mathlib.Data.List.Nodup
import Mathlib.Data.List.Range

/-! Things that are set up and torn down in turn, as a log of both. -/

namespace MnCommon.Memory

inductive Event (ι : Type) where
  | init (i : ι)
  | fini (i : ι)
  deriving DecidableEq, Repr

namespace Event

variable {ι : Type} [DecidableEq ι] {i : ι} {slots others : List ι} {before after : ι → Bool}

/-- The events of one thing in turn, from a state in which it is set up or not:
`none` as soon as it is set up twice or torn down twice. -/
def replay (i : ι) : List (Event ι) → Bool → Option Bool
  | [], alive => some alive
  | init j :: log, alive => if i = j then (if alive then none else replay i log true) else replay i log alive
  | fini j :: log, alive => if i = j then (if alive then replay i log false else none) else replay i log alive

theorem replay_append (log more : List (Event ι)) (alive : Bool) :
    replay i (log ++ more) alive = (replay i log alive).bind (replay i more) := by
  induction log generalizing alive with
  | nil => rfl
  | cons event log ih =>
      cases event with
      | init j =>
          rw [List.cons_append, replay, replay, ih, ih]
          split
          · split
            · rfl
            · rfl
          · rfl
      | fini j =>
          rw [List.cons_append, replay, replay, ih, ih]
          split
          · split
            · rfl
            · rfl
          · rfl

/-- Things that are torn down once each, while they are set up. -/
theorem replay_finis (once : slots.Nodup) (alive : Bool) (there : i ∈ slots → alive = true) :
    replay i (slots.map fini) alive = some (alive && !decide (i ∈ slots)) := by
  induction slots generalizing alive with
  | nil => simp only [List.map_nil, replay, List.not_mem_nil, decide_false, Bool.not_false, Bool.and_true]
  | cons j slots ih =>
      rcases List.nodup_cons.mp once with ⟨new, rest⟩
      rw [List.map_cons, replay]
      by_cases here : i = j
      · subst here
        obtain rfl : alive = true := there List.mem_cons_self
        rw [if_pos rfl, if_pos rfl, ih rest false (fun inside => absurd inside new)]
        simp only [Bool.false_and, List.mem_cons_self, decide_true, Bool.not_true, Bool.and_false]
      · rw [if_neg here, ih rest alive fun inside => there (List.mem_cons_of_mem _ inside)]
        simp only [List.mem_cons, here, false_or]

/-- Things that are set up once each, while they are not. -/
theorem replay_inits (once : slots.Nodup) (alive : Bool) (away : i ∈ slots → alive = false) :
    replay i (slots.map init) alive = some (alive || decide (i ∈ slots)) := by
  induction slots generalizing alive with
  | nil => simp only [List.map_nil, replay, List.not_mem_nil, decide_false, Bool.or_false]
  | cons j slots ih =>
      rcases List.nodup_cons.mp once with ⟨new, rest⟩
      rw [List.map_cons, replay]
      by_cases here : i = j
      · subst here
        obtain rfl : alive = false := away List.mem_cons_self
        rw [if_pos rfl, if_neg Bool.false_ne_true, ih rest true (fun inside => absurd inside new)]
        simp only [Bool.true_or, List.mem_cons_self, decide_true, Bool.or_true]
      · rw [if_neg here, ih rest alive fun inside => away (List.mem_cons_of_mem _ inside)]
        simp only [List.mem_cons, here, false_or]

/-- Some things are torn down, then some are set up; what stays is left alone. -/
theorem replay_turnover {log : List (Event ι)} {alive next : Bool} (past : replay i log false = some alive)
    (out : slots.Nodup) (there : i ∈ slots → alive = true) (enter : others.Nodup)
    (away : i ∈ others → alive = true → i ∈ slots)
    (settled : next = (alive && !decide (i ∈ slots) || decide (i ∈ others))) :
    replay i (log ++ (slots.map fini ++ others.map init)) false = some next := by
  have free : i ∈ others → (alive && !decide (i ∈ slots)) = false := by
    intro inside
    cases alive with
    | false => rfl
    | true => simp only [away inside rfl, decide_true, Bool.not_true, Bool.and_false]
  rw [replay_append, past, Option.bind_some, replay_append, replay_finis out alive there, Option.bind_some,
    replay_inits enter _ free, settled]

/-- How often a thing has been set up since it was last torn down, `count` times before the log. -/
def setups (i : ι) : List (Event ι) → Nat → Nat
  | [], count => count
  | init j :: log, count => setups i log (if i = j then count + 1 else count)
  | fini j :: log, count => setups i log (if i = j then 0 else count)

theorem setups_append (log more : List (Event ι)) (count : Nat) :
    setups i (log ++ more) count = setups i more (setups i log count) := by
  induction log generalizing count with
  | nil => rfl
  | cons event log ih =>
      cases event with
      | init j => rw [List.cons_append, setups, setups, ih]
      | fini j => rw [List.cons_append, setups, setups, ih]

theorem setups_inits (once : slots.Nodup) (count : Nat) :
    setups i (slots.map init) count = if i ∈ slots then count + 1 else count := by
  induction slots generalizing count with
  | nil => simp only [List.map_nil, setups, List.not_mem_nil, if_false]
  | cons j slots ih =>
      rcases List.nodup_cons.mp once with ⟨new, rest⟩
      rw [List.map_cons, setups, ih rest]
      by_cases here : i = j
      · subst here
        simp only [List.mem_cons_self, if_true, if_neg new]
      · simp only [List.mem_cons, here, false_or, if_false]

/-- A thing that is set up has been set up at some time. -/
theorem mem_of_setups {log : List (Event ι)} (some : 0 < setups i log 0) : init i ∈ log := by
  have general : ∀ count, 0 < setups i log count → init i ∈ log ∨ 0 < count := by
    clear some
    induction log with
    | nil => exact fun count more => .inr more
    | cons event log ih =>
        intro count more
        cases event with
        | init j =>
            by_cases here : i = j
            · exact .inl (here ▸ List.mem_cons_self)
            · rw [setups, if_neg here] at more
              exact (ih count more).imp_left (List.mem_cons_of_mem _)
        | fini j =>
            rw [setups] at more
            rcases ih _ more with inside | positive
            · exact .inl (List.mem_cons_of_mem _ inside)
            · refine .inr ?_
              split at positive
              · exact absurd positive (Nat.lt_irrefl 0)
              · exact positive
  exact (general 0 some).resolve_right (Nat.lt_irrefl 0)

end Event

end MnCommon.Memory
