import MnCommon.Arrays.Calls

/-! The lives of arrays and of their elements, over whole runs. -/

namespace MnCommon.Arrays

open Memory (Fault Along)
open Memory.Event (replay replay_turnover)

inductive ArrayOp where
  | init (elsz elnum : Nat) (init fini : Option Callback)
  | ensureLen (newelnum : Nat) (flags : UInt32)
  | incr
  | decr
  | decrFast
  | clear
  | fini

/-- A result, or the offset of an element. -/
inductive Answer where
  | code (res : Int)
  | item (offset : Nat)

/-- `live` holds from `array_init` to `array_fini`. `log` has the calls of the
callbacks since `array_init`, and `paired` says that it was given both. -/
structure Client where
  array : Mnarray
  live : Bool
  log : List Event
  paired : Bool

def Client.after (c : Client) (events : List Event) (ar : Mnarray) : Client :=
  { c with array := ar, log := c.log ++ events }

def step (junk : Nat → UInt8) : ArrayOp → Client → Except Fault (Answer × Client)
  | .init elsz elnum init fini, _ => (arrayInit junk elsz elnum init fini).map fun rest =>
      (.code rest.1, ⟨rest.2.2, true, rest.2.1, init.isSome && fini.isSome⟩)
  | .ensureLen n flags, c => (arrayEnsureLen junk n flags c.array).map fun rest =>
      (.code 0, c.after rest.1 rest.2)
  | .incr, c => (arrayIncr junk c.array).map fun rest => (.item rest.1, c.after rest.2.1 rest.2.2)
  | .decr, c => (arrayDecr junk c.array).map fun rest => (.code rest.1, c.after rest.2.1 rest.2.2)
  | .decrFast, c => (arrayDecrFast c.array).map fun rest => (.code rest.1, c.after rest.2.1 rest.2.2)
  | .clear, c => (arrayClear c.array).map fun rest => (.code rest.1, c.after rest.2.1 rest.2.2)
  | .fini, c => (arrayFini c.array).map fun rest =>
      (.code rest.1, { c.after rest.2.1 rest.2.2 with live := false })

/-- The elements that leave the array. -/
def leaving : ArrayOp → Mnarray → List Nat
  | .init .., _ => []
  | .ensureLen n flags, ar => resizeOut (saves flags) n ar
  | .incr, _ => []
  | .decr, ar => if ar.elnum = 0 then [] else [ar.elnum - 1]
  | .decrFast, ar => if ar.elnum = 0 then [] else [ar.elnum - 1]
  | .clear, ar => List.range ar.elnum
  | .fini, ar => List.range ar.elnum

/-- The elements that enter it. -/
def entering : ArrayOp → Mnarray → List Nat
  | .init _ n _ _, _ => List.range n
  | .ensureLen n flags, ar => resizeEnter (saves flags) n ar
  | .incr, ar => [ar.elnum]
  | _, _ => []

/-- The operations after which the elements that stay are as they were. -/
def keepsContents : ArrayOp → Bool
  | .ensureLen _ flags => saves flags
  | .incr => true
  | .decr => true
  | .decrFast => true
  | _ => false

/-- The callbacks are called once on each element that leaves, then once on each
that enters. -/
def Accounts (op : ArrayOp) (c next : Client) : Prop :=
  match op with
  | .init _ n init _ => next.log = made .init init (List.range n)
  | op => next.log = c.log ++ (made .fini c.array.fini (leaving op c.array) ++
      made .init c.array.init (entering op c.array))

/-- Each element is set up when it is not and torn down when it is, and those below
`elnum` are set up. -/
def Alternates (c : Client) : Prop :=
  c.paired = true → ∀ slot, replay slot c.log false = some (decide (slot < c.array.elnum))

def Upholds (junk : Nat → UInt8) (op : ArrayOp) (c : Client) : Prop :=
  ∃ answer next, step junk op c = .ok (answer, next) ∧
    (next.live = true → next.array.elnum * next.array.elsz ≤ next.array.datasz) ∧
    (keepsContents op = true → SamePrefix c.array next.array) ∧ Accounts op c next ∧ Alternates next

/-- An array is set up before it is used, and again only when it has no elements; its
length fits into 32 bits and its size into a `size_t`. -/
def Allowed : ArrayOp → Client → Prop
  | .init elsz n init fini, c =>
      (c.live = true → c.array.elnum = 0) ∧ 0 < elsz ∧ n < 2 ^ 32 ∧ elsz * n < 2 ^ 64 ∧ Succeeds init ∧ Succeeds fini
  | .ensureLen n _, c => c.live = true ∧ n < 2 ^ 32 ∧ c.array.elsz * n < 2 ^ 64
  | .incr, c => c.live = true ∧ c.array.elnum + 1 < 2 ^ 32 ∧ c.array.elsz * (c.array.elnum + 1) < 2 ^ 64
  | _, c => c.live = true

structure Orderly (c : Client) : Prop where
  sound : c.live = true → Sound c.array
  both : c.live = true → c.paired = true → c.array.init.isSome = true ∧ c.array.fini.isSome = true
  alternates : Alternates c

variable {junk : Nat → UInt8} {c next : Client} {ar : Mnarray} {n : Nat} {out enter : List Nat} {events : List Event}

/-- The elements that leave are there, those that enter are not or have left, and
`n` elements are there afterwards. -/
structure Turnover (elnum n : Nat) (out enter : List Nat) : Prop where
  once : out.Nodup
  there : ∀ i ∈ out, i < elnum
  enters : enter.Nodup
  away : ∀ i ∈ enter, i < elnum → i ∈ out
  settled : ∀ i, i < n ↔ (i < elnum ∧ i ∉ out) ∨ i ∈ enter

theorem made_some {kind : Nat → Event} {cb : Option Callback} (given : cb.isSome = true) (slots : List Nat) :
    made kind cb slots = slots.map kind := if_pos given

theorem Turnover.replay {log : List Event} {slot elnum : Nat} (turnover : Turnover elnum n out enter)
    (past : replay slot log false = some (decide (slot < elnum))) :
    Memory.Event.replay slot (log ++ (out.map .fini ++ enter.map .init)) false = some (decide (slot < n)) := by
  apply replay_turnover past turnover.once
  · exact fun inside => decide_eq_true (turnover.there slot inside)
  · exact turnover.enters
  · exact fun inside low => turnover.away slot inside (of_decide_eq_true low)
  · rw [← decide_not, ← Bool.decide_and, ← Bool.decide_or]
    exact decide_eq_decide.mpr (turnover.settled slot)

/-- An operation on a live array. -/
theorem Orderly.turned (orderly : Orderly c) (live : c.live = true) (turned : Turned c.array out enter n events ar)
    (turnover : Turnover c.array.elnum n out enter) : Orderly (c.after events ar) := by
  refine ⟨fun _ => turned.sound, fun _ paired => ?_, fun paired slot => ?_⟩
  · rw [Client.after, turned.init, turned.fini]
    exact orderly.both live paired
  · rcases orderly.both live paired with ⟨init, fini⟩
    simp only [Client.after, turned.events, turned.elnum, made_some init, made_some fini]
    exact turnover.replay (orderly.alternates paired slot)

theorem turnover_resize (save : Bool) (n : Nat) (ar : Mnarray) :
    Turnover ar.elnum n (resizeOut save n ar) (resizeEnter save n ar) := by
  cases save with
  | true =>
      refine ⟨List.nodup_range', fun i inside => ?_, List.nodup_range', fun i inside low => ?_, fun i => ?_⟩
      · simp only [resizeOut, if_true, List.mem_range'_1] at inside
        omega
      · simp only [resizeEnter, if_true, List.mem_range'_1] at inside
        omega
      · simp only [resizeOut, resizeEnter, if_true, List.mem_range'_1]
        omega
  | false =>
      refine ⟨List.nodup_range, fun i inside => List.mem_range.mp inside, List.nodup_range, fun i _ low => ?_,
        fun i => ?_⟩
      · exact List.mem_range.mpr low
      · simp only [resizeOut, resizeEnter, Bool.false_eq_true, if_false, List.mem_range]
        omega

theorem turnover_clear (n : Nat) : Turnover n 0 (List.range n) [] := by
  refine ⟨List.nodup_range, fun i inside => List.mem_range.mp inside, .nil, nofun, fun i => ?_⟩
  simp only [List.mem_range, List.not_mem_nil, or_false]
  omega

theorem turnover_last {n : Nat} (some : n ≠ 0) : Turnover n (n - 1) [n - 1] [] := by
  refine ⟨List.nodup_singleton _, fun i inside => ?_, .nil, nofun, fun i => ?_⟩
  · rw [List.mem_singleton] at inside
    omega
  · simp only [List.mem_singleton, List.not_mem_nil, or_false]
    omega

/-- What an operation on a live array does, with all that the next ones need. -/
structure Done (op : ArrayOp) (c : Client) (next : Client) : Prop where
  orderly : Orderly next
  kept : keepsContents op = true → SamePrefix c.array next.array
  accounts : Accounts op c next

theorem Orderly.resize (orderly : Orderly c) (junk : Nat → UInt8) (live : c.live = true) (flags : UInt32)
    (whole : (saves flags = true → c.array.elnum < n) → c.array.elsz * n < 2 ^ 64) :
    ∃ events ar, arrayEnsureLen junk n flags c.array = .ok (events, ar) ∧ Orderly (c.after events ar) ∧
      (saves flags = true → SamePrefix c.array ar) ∧
      events = made .fini c.array.fini (resizeOut (saves flags) n c.array) ++
        made .init c.array.init (resizeEnter (saves flags) n c.array) := by
  rcases arrayEnsureLen_spec junk flags (orderly.sound live) whole with ⟨events, ar, run, turned, same⟩
  exact ⟨events, ar, run, orderly.turned live turned (turnover_resize _ n _), same, turned.events⟩

theorem saves_save : saves arrayFlagSave = true := by decide

/-- One element less, in either way; an empty array stays as it is. -/
theorem Orderly.unchanged (orderly : Orderly c) (op : ArrayOp) (out : leaving op c.array = [])
    (enter : entering op c.array = []) (other : ∀ elsz n i f, op ≠ .init elsz n i f) :
    Done op c (c.after [] c.array) := by
  have same : c.after [] c.array = c := by rw [Client.after, List.append_nil]
  rw [same]
  refine ⟨orderly, fun _ _ _ => rfl, ?_⟩
  cases op with
  | init elsz n i f => exact absurd rfl (other elsz n i f)
  | _ => simp only [Accounts, out, enter, made_nil, List.append_nil]

def Does (junk : Nat → UInt8) (op : ArrayOp) (c : Client) : Prop :=
  ∃ answer next, step junk op c = .ok (answer, next) ∧ Done op c next

theorem init_does {elsz : Nat} {init fini : Option Callback} (allowed : Allowed (.init elsz n init fini) c) :
    Does junk (.init elsz n init fini) c := by
  rcases allowed with ⟨-, positive, -, whole, initOk, finiOk⟩
  rcases arrayInit_spec junk positive whole initOk finiOk with ⟨ar, run, sound, elnum, own, own'⟩
  refine ⟨.code 0, ⟨ar, true, made .init init (List.range n), init.isSome && fini.isSome⟩, ?_,
    ⟨fun _ => sound, fun _ paired => ?_, fun paired slot => ?_⟩, by simp [keepsContents], rfl⟩
  · rw [step, run]
    rfl
  · rw [own, own']
    exact Bool.and_eq_true_iff.mp paired
  · rw [made_some (Bool.and_eq_true_iff.mp paired).1, Memory.Event.replay_inits List.nodup_range false
      (fun _ => rfl), Bool.false_or, elnum]
    simp only [List.mem_range]

theorem ensureLen_does {flags : UInt32} (orderly : Orderly c) (allowed : Allowed (.ensureLen n flags) c) :
    Does junk (.ensureLen n flags) c := by
  rcases allowed with ⟨live, -, whole⟩
  rcases orderly.resize junk live flags (fun _ => whole) with ⟨events, ar, run, after, same, calls⟩
  refine ⟨.code 0, c.after events ar, ?_, after, same, ?_⟩
  · rw [step, run]
    rfl
  · simp only [Accounts, Client.after, calls, leaving, entering]

theorem incr_does (orderly : Orderly c) (allowed : Allowed .incr c) : Does junk .incr c := by
  rcases allowed with ⟨live, -, whole⟩
  rcases orderly.resize junk live arrayFlagSave (fun _ => whole) with ⟨events, ar, run, after, same, calls⟩
  refine ⟨.item (ar.elsz * (ar.elnum - 1)), c.after events ar, ?_, after, fun _ => same saves_save, ?_⟩
  · rw [step, arrayIncr, run]
    rfl
  · have out : resizeOut true (c.array.elnum + 1) c.array = [] := by
      rw [resizeOut, if_pos rfl, Nat.sub_eq_zero_of_le (Nat.le_succ _), List.range'_zero]
    have enter : resizeEnter true (c.array.elnum + 1) c.array = [c.array.elnum] := by
      rw [resizeEnter, if_pos rfl, Nat.add_sub_cancel_left, List.range'_one]
    simp only [Accounts, Client.after, calls, leaving, entering, saves_save, out, enter]

theorem decr_does (orderly : Orderly c) (live : c.live = true) : Does junk .decr c := by
  by_cases empty : c.array.elnum = 0
  · refine ⟨.code 1, c.after [] c.array, ?_, orderly.unchanged .decr (if_pos empty) rfl (by simp)⟩
    rw [step, arrayDecr, if_pos empty]
    rfl
  · have whole : (saves arrayFlagSave = true → c.array.elnum < c.array.elnum - 1) →
        c.array.elsz * (c.array.elnum - 1) < 2 ^ 64 :=
      fun grows => absurd (grows saves_save) (Nat.not_lt.mpr (Nat.sub_le _ _))
    rcases orderly.resize junk live arrayFlagSave whole with ⟨events, ar, run, after, same, calls⟩
    refine ⟨.code 0, c.after events ar, ?_, after, fun _ => same saves_save, ?_⟩
    · rw [step, arrayDecr, if_neg empty, run]
      rfl
    · have out : resizeOut true (c.array.elnum - 1) c.array = [c.array.elnum - 1] := by
        rw [resizeOut, if_pos rfl, Nat.sub_sub_self (Nat.pos_of_ne_zero empty), List.range'_one]
      have enter : resizeEnter true (c.array.elnum - 1) c.array = [] := by
        rw [resizeEnter, if_pos rfl, Nat.sub_eq_zero_of_le (Nat.sub_le _ _), List.range'_zero]
      simp only [Accounts, Client.after, calls, leaving, entering, saves_save, out, enter, if_neg empty]

theorem decrFast_does (orderly : Orderly c) (live : c.live = true) : Does junk .decrFast c := by
  by_cases empty : c.array.elnum = 0
  · refine ⟨.code 1, c.after [] c.array, ?_, orderly.unchanged .decrFast (if_pos empty) rfl (by simp)⟩
    rw [step, arrayDecrFast, if_pos empty]
    rfl
  · rcases arrayDecrFast_spec (orderly.sound live) empty with ⟨events, ar, run, turned, same⟩
    refine ⟨.code 0, c.after events ar, ?_, orderly.turned live turned (turnover_last empty), fun _ => same, ?_⟩
    · rw [step, run]
      rfl
    · simp only [Accounts, Client.after, turned.events, leaving, entering, if_neg empty]

theorem clear_does (orderly : Orderly c) (live : c.live = true) : Does junk .clear c := by
  rcases arrayClear_spec (orderly.sound live) with ⟨events, ar, run, turned⟩
  refine ⟨.code 0, c.after events ar, ?_, orderly.turned live turned (turnover_clear _), by simp [keepsContents], ?_⟩
  · rw [step, run]
    rfl
  · simp only [Accounts, Client.after, turned.events, leaving, entering]

theorem fini_does (orderly : Orderly c) (live : c.live = true) : Does junk .fini c := by
  rcases arrayFini_spec (orderly.sound live) with ⟨ar, run, empty⟩
  refine ⟨.code 0, { c.after (made .fini c.array.fini (List.range c.array.elnum)) ar with live := false }, ?_,
    ⟨by simp, by simp, fun paired slot => ?_⟩, by simp [keepsContents], ?_⟩
  · rw [step, run]
    rfl
  · have turnover := (turnover_clear c.array.elnum).replay (orderly.alternates paired slot)
    rw [List.map_nil, List.append_nil] at turnover
    simp only [Client.after, empty, made_some (orderly.both live paired).2]
    exact turnover
  · simp only [Accounts, Client.after, leaving, entering, made_nil, List.append_nil]

theorem step_spec (op : ArrayOp) (orderly : Orderly c) (allowed : Allowed op c) : Does junk op c := by
  cases op with
  | init elsz n init fini => exact init_does allowed
  | ensureLen n flags => exact ensureLen_does orderly allowed
  | incr => exact incr_does orderly allowed
  | decr => exact decr_does orderly allowed
  | decrFast => exact decrFast_does orderly allowed
  | clear => exact clear_does orderly allowed
  | fini => exact fini_does orderly allowed

/-- Before the first `array_init` the array may be anything. -/
def Client.fresh (ar : Mnarray) : Client := ⟨ar, false, [], false⟩

/-- Arrays keep their elements in memory and in order along every run. -/
theorem run_lifecycles (junk : Nat → UInt8) (ar : Mnarray) {ops : List ArrayOp}
    (allowed : Along (step junk) Allowed ops (Client.fresh ar)) :
    Along (step junk) (Upholds junk) ops (Client.fresh ar) := by
  have locally : ∀ op c, Orderly c → Allowed op c → Upholds junk op c := by
    intro op c orderly fine
    rcases step_spec op orderly fine with ⟨answer, next, run, done⟩
    exact ⟨answer, next, run, fun live => (done.orderly.sound live).fits, done.kept, done.accounts,
      done.orderly.alternates⟩
  have keeps : ∀ op c answer next, Orderly c → Allowed op c → step junk op c = .ok (answer, next) →
      Orderly next := by
    intro op c answer next orderly fine stepped
    rcases step_spec op orderly fine with ⟨answer', next', run, done⟩
    rcases Prod.mk.inj (Except.ok.inj (stepped.symm.trans run)) with ⟨-, rfl⟩
    exact done.orderly
  exact allowed.of_invariant locally keeps ⟨nofun, nofun, nofun⟩

/-- Only `array_fini` ends the life of an array. -/
theorem step_live {op : ArrayOp} {answer : Answer} (other : op ≠ .fini)
    (live : (∀ elsz n i f, op ≠ .init elsz n i f) → c.live = true)
    (stepped : step junk op c = .ok (answer, next)) : next.live = true := by
  have mapped : ∀ {β : Type} (x : Except Fault β) (f : β → Answer × Client), (∀ b, (f b).2.live = true) →
      x.map f = .ok (answer, next) → next.live = true := by
    intro β x f alive run
    cases x with
    | error fault => cases run
    | ok b =>
        have same : (f b).2 = next := congrArg Prod.snd (Except.ok.inj run)
        exact same ▸ alive b
  cases op with
  | fini => exact absurd rfl other
  | init elsz n init fini => exact mapped _ _ (fun _ => rfl) stepped
  | _ => exact mapped _ _ (fun _ => live nofun) stepped

theorem sampleOps_lifecycles : Along (step fun _ => 0) (Upholds fun _ => 0)
    [.init 4 3 (some fun bytes => (0, bytes)) (some fun bytes => (0, bytes)), .decr, .ensureLen 0 0, .clear, .fini]
    (Client.fresh ⟨0, 0, none, 0, none, none⟩) := by
  have succeeds : Succeeds (some fun bytes => (0, bytes)) := fun _ same _ => Option.some.inj same ▸ rfl
  apply run_lifecycles
  refine ⟨⟨nofun, by decide, by decide, by decide, succeeds, succeeds⟩, fun _ c1 first => ?_⟩
  have live1 := step_live (by nofun) (fun other => absurd rfl (other _ _ _ _)) first
  refine ⟨live1, fun _ c2 second => ?_⟩
  have live2 := step_live (by nofun) (fun _ => live1) second
  refine ⟨⟨live2, by decide, by rw [Nat.mul_zero]; decide⟩, fun _ c3 third => ?_⟩
  have live3 := step_live (by nofun) (fun _ => live2) third
  exact ⟨live3, fun _ c4 fourth => ⟨step_live (by nofun) (fun _ => live3) fourth, fun _ _ _ => trivial⟩⟩

end MnCommon.Arrays
