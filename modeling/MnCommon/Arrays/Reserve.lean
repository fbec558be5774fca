import MnCommon.Arrays.GetSafe

/-! Capacity that is reserved with `array_ensure_datasz` and `ARRAY_FLAG_SAVE`. -/

namespace MnCommon.Arrays

open Memory (Along along_iff_within of_bind_ok of_map_ok Fault)

inductive ReserveOp where
  | base (op : ArrayOp)
  | reserve (n : Nat)

def reserveStep (junk : Nat → UInt8) : ReserveOp → Client → Except Fault (Answer × Client)
  | .base op, c => step junk op c
  | .reserve n, c => (arrayEnsureDatasz junk n arrayFlagSave c.array).map fun rest => (.code 0, c.after rest.1 rest.2)

/-- As for the other operations, the size fits into a `size_t`. -/
def Admitted : ReserveOp → Client → Prop
  | .base op, c => Allowed op c
  | .reserve n, c => c.live = true ∧ n < 2 ^ 32 ∧ c.array.elsz * n < 2 ^ 64

/-- All elements lie in the memory of the array. -/
def Inside (ar : Mnarray) : Prop :=
  ar.elnum * ar.elsz ≤ ar.datasz ∧ ar.data.map Block.size = if ar.datasz = 0 then none else some ar.datasz

/-- A next `array_incr` makes the only call of `init` on the element that it appends, from the reserving on. -/
def AppendsOnce (junk : Nat → UInt8) (events : List Event) (c next : Client) : Prop :=
  Allowed .incr next → ∃ answer after, step junk .incr next = .ok (answer, after) ∧
    ∃ later, after.log = next.log ++ later ∧
      (events ++ later).count (.init c.array.elnum) = if c.array.init.isSome then 1 else 0

/-- To reserve capacity changes nothing else; the other operations do what they do without it. -/
def Spared (junk : Nat → UInt8) (op : ReserveOp) (c : Client) : Prop :=
  match op with
  | .base op => Upholds junk op c
  | .reserve n => ∃ answer next events, reserveStep junk (.reserve n) c = .ok (answer, next) ∧
      next.log = c.log ++ events ∧ next.array.elnum = c.array.elnum ∧ SamePrefix c.array next.array ∧
      (∀ slot < c.array.elnum, .fini slot ∉ events) ∧ Inside next.array ∧ AppendsOnce junk events c next

/-- There are as many elements already, or more are reserved without an `init` callback, or fewer
but some without a `fini` callback. -/
def Harmless (op : ReserveOp) (c : Client) : Prop :=
  match op with
  | .base _ => True
  | .reserve n => n = c.array.elnum ∨ c.array.elnum < n ∧ c.array.init = none ∨
      0 < n ∧ n < c.array.elnum ∧ c.array.fini = none

variable {junk : Nat → UInt8} {c next : Client} {ar next' : Mnarray} {n : Nat} {events : List Event}

theorem Sound.inside (sound : Sound ar) : Inside ar := ⟨sound.fits, sound.size⟩

/-- More elements that are not counted. -/
theorem Turned.uncounted {enter : List Nat} (turned : Turned ar [] enter n events next') (more : ar.elnum ≤ n) :
    Sound { next' with elnum := ar.elnum } := by
  have room := turned.sound.fits
  rw [turned.elnum] at room
  exact ⟨turned.sound.positive, turned.sound.size, (Nat.mul_le_mul_right _ more).trans room, turned.sound.init,
    turned.sound.fini⟩

theorem extend_elsz (run : extend junk n ar = .ok (events, next')) : next'.elsz = ar.elsz := by
  rcases of_bind_ok run with ⟨⟨res, inits, last⟩, first, finish⟩
  rcases visit_data first with ⟨data, rfl⟩
  cases finish
  exact grow_elsz junk n ar

/-- Reserving that calls nothing. -/
theorem reserve_quiet (junk : Nat → UInt8) (sound : Sound ar) (whole : ar.elsz * n < 2 ^ 64)
    (harmless : n = ar.elnum ∨ ar.elnum < n ∧ ar.init = none ∨ 0 < n ∧ n < ar.elnum ∧ ar.fini = none) :
    ∃ next, arrayEnsureDatasz junk n arrayFlagSave ar = .ok ([], next) ∧ Sound next ∧ next.elnum = ar.elnum ∧
      next.init = ar.init ∧ next.fini = ar.fini ∧ SamePrefix ar next := by
  have flag : ¬ arrayFlagSave &&& arrayFlagSave = 0 := by decide
  rw [arrayEnsureDatasz, arrayEnsureLen, if_neg flag]
  rcases harmless with rfl | ⟨more, init⟩ | ⟨positive, fewer, fini⟩
  · rw [if_neg (Nat.lt_irrefl _), if_neg (Nat.lt_irrefl _)]
    exact ⟨ar, rfl, sound, rfl, rfl, rfl, fun _ _ => rfl⟩
  · rcases extend_spec junk sound more whole with ⟨events, next, run, turned, same⟩
    have quiet : events = [] := by
      rw [turned.events, made_nil, init]
      rfl
    rw [if_pos more, run, quiet]
    refine ⟨{ next with elnum := ar.elnum }, rfl, turned.uncounted more.le, rfl, turned.init, turned.fini, ?_⟩
    intro j low
    apply same j
    rw [turned.elnum, min_eq_left more.le]
    exact low.trans_le (Nat.mul_le_mul_right _ (min_le_left _ _))
  · rw [if_neg (Nat.lt_asymm fewer), if_pos fewer]
    have quiet : visit .fini ar.fini false (List.range' n (ar.elnum - n)) ar = .ok (0, [], ar) := by
      rw [fini]
      rfl
    have run : shrink n ar = .ok ([], { ar with elnum := n }) := by
      simp only [shrink, quiet, bind, Except.bind, pure, Except.pure, if_pos positive]
    rw [run]
    exact ⟨ar, rfl, sound, rfl, rfl, rfl, fun _ _ => rfl⟩

/-- What `array_incr` calls. -/
theorem incr_calls (junk : Nat → UInt8) (sound : c.live = true → Sound c.array) (allowed : Allowed .incr c) :
    ∃ answer after, step junk .incr c = .ok (answer, after) ∧
      after.log = c.log ++ made .init c.array.init [c.array.elnum] := by
  rcases allowed with ⟨live, _, whole⟩
  rcases arrayEnsureLen_spec junk arrayFlagSave (sound live) (fun _ => whole) with ⟨events, ar, run, turned, -⟩
  have out : resizeOut true (c.array.elnum + 1) c.array = [] := by
    rw [resizeOut, if_pos rfl, Nat.sub_eq_zero_of_le (Nat.le_succ _), List.range'_zero]
  have enter : resizeEnter true (c.array.elnum + 1) c.array = [c.array.elnum] := by
    rw [resizeEnter, if_pos rfl, Nat.add_sub_cancel_left, List.range'_one]
  have calls := turned.events
  rw [saves_save, out, enter, made_nil, List.nil_append] at calls
  refine ⟨.item (ar.elsz * (ar.elnum - 1)), c.after events ar, ?_, ?_⟩
  · rw [step, arrayIncr, run]
    rfl
  · rw [Client.after, calls]

theorem count_made (cb : Option Callback) (slot : Nat) :
    (made .init cb [slot]).count (.init slot) = if cb.isSome then 1 else 0 := by
  rw [made]
  split
  · exact List.count_singleton_self
  · rfl

theorem Orderly.reserve (orderly : Orderly c) (admitted : Admitted (.reserve n) c)
    (harmless : Harmless (.reserve n) c) :
    Spared junk (.reserve n) c ∧
      ∀ answer next, reserveStep junk (.reserve n) c = .ok (answer, next) → Orderly next := by
  rcases admitted with ⟨live, _, whole⟩
  rcases reserve_quiet junk (orderly.sound live) whole harmless with ⟨ar, run, sound, elnum, init, fini, same⟩
  have ran : reserveStep junk (.reserve n) c = .ok (.code 0, c.after [] ar) := by
    rw [reserveStep, run]
    rfl
  have log : (c.after [] ar).log = c.log := List.append_nil _
  constructor
  · refine ⟨_, _, [], ran, rfl, elnum, same, fun _ _ => List.not_mem_nil, sound.inside, fun allowed => ?_⟩
    rcases incr_calls junk (fun _ => sound) allowed with ⟨answer, after, stepped, calls⟩
    refine ⟨answer, after, stepped, _, calls, ?_⟩
    change (made .init ar.init [ar.elnum]).count _ = _
    rw [init, elnum, count_made]
  · intro answer next stepped
    cases ran.symm.trans stepped
    refine ⟨fun _ => sound, fun _ paired => ?_, fun paired slot => ?_⟩
    · change ar.init.isSome = true ∧ ar.fini.isSome = true
      rw [init, fini]
      exact orderly.both live paired
    · rw [log]
      change _ = some (decide (slot < ar.elnum))
      rw [elnum]
      exact orderly.alternates paired slot

theorem ensureDatasz_saved (run : arrayEnsureDatasz junk n arrayFlagSave ar = .ok (events, next')) :
    ∃ last, next' = { last with elnum := ar.elnum } ∧
      (if ar.elnum < n then extend junk n ar else if n < ar.elnum then shrink n ar else .ok ([], ar)) =
        .ok (events, last) := by
  have flag : ¬ arrayFlagSave &&& arrayFlagSave = 0 := by decide
  rw [arrayEnsureDatasz, arrayEnsureLen, if_neg flag] at run
  rcases of_map_ok run with ⟨⟨calls, last⟩, saved, same⟩
  cases same
  exact ⟨last, rfl, saved⟩

/-- The first element that is reserved is set up with the others. -/
theorem extend_inits (sound : Sound ar) (more : ar.elnum < n) (whole : ar.elsz * n < 2 ^ 64)
    (run : extend junk n ar = .ok (events, next')) (given : ar.init.isSome = true) : .init ar.elnum ∈ events := by
  rcases extend_spec junk sound more whole with ⟨events', last, run', turned, -⟩
  cases run.symm.trans run'
  rw [turned.events, made_nil, List.nil_append, made_some given]
  apply List.mem_map_of_mem
  rw [List.mem_range'_1]
  omega

theorem shrink_finis (sound : Sound ar) (fewer : n < ar.elnum) (run : shrink n ar = .ok (events, next'))
    (given : ar.fini.isSome = true) : .fini n ∈ events := by
  rcases shrink_spec sound fewer with ⟨events', last, run', turned, -⟩
  cases run.symm.trans run'
  rw [turned.events, made_nil, List.append_nil, made_some given]
  apply List.mem_map_of_mem
  rw [List.mem_range'_1]
  omega

/-- The memory is given back where no elements are wanted. -/
theorem shrink_none (run : shrink 0 ar = .ok (events, next')) : next'.datasz = 0 ∧ next'.elsz = ar.elsz := by
  rcases of_bind_ok run with ⟨⟨res, finis, mid⟩, first, finish⟩
  rcases visit_data first with ⟨data, rfl⟩
  cases finish
  exact ⟨rfl, rfl⟩

theorem Orderly.harmless (orderly : Orderly c) (admitted : Admitted (.reserve n) c)
    (spared : Spared junk (.reserve n) c) : Harmless (.reserve n) c := by
  rcases admitted with ⟨live, small, whole⟩
  have sound := orderly.sound live
  rcases spared with ⟨answer, next, events, ran, log, elnum, _, alive, inside, appends⟩
  rcases of_map_ok ran with ⟨⟨events', ar⟩, saved, same⟩
  cases same
  obtain rfl : events' = events := List.append_cancel_left log
  rcases ensureDatasz_saved saved with ⟨last, rfl, run⟩
  rcases Nat.lt_trichotomy c.array.elnum n with more | equal | fewer
  · rw [if_pos more] at run
    refine .inr (.inl ⟨more, ?_⟩)
    by_contra given
    have init : c.array.init.isSome = true := Option.isSome_iff_ne_none.mpr given
    rcases extend_spec junk sound more whole with ⟨_, _, run', turned, -⟩
    cases run.symm.trans run'
    have allowed : Allowed .incr (c.after events' { last with elnum := c.array.elnum }) := by
      refine ⟨live, (Nat.succ_le_of_lt more).trans_lt small, ?_⟩
      change last.elsz * (c.array.elnum + 1) < 2 ^ 64
      rw [extend_elsz run]
      exact (Nat.mul_le_mul_left _ more).trans_lt whole
    rcases appends allowed with ⟨answer, after, stepped, later, log', count⟩
    rcases incr_calls junk (fun _ => turned.uncounted more.le) allowed with ⟨answer', after', stepped', log''⟩
    cases stepped.symm.trans stepped'
    obtain rfl : later = made .init last.init [c.array.elnum] := List.append_cancel_left (log'.symm.trans log'')
    have before := List.count_pos_iff.mpr (extend_inits sound more whole run init)
    rw [List.count_append, turned.init, count_made, if_pos init] at count
    omega
  · exact .inl equal.symm
  · rw [if_neg (Nat.lt_asymm fewer), if_pos fewer] at run
    have positive : 0 < n := by
      apply Nat.pos_of_ne_zero
      rintro rfl
      rcases shrink_none run with ⟨datasz, elsz⟩
      have room : c.array.elnum * last.elsz ≤ last.datasz := inside.1
      have some := Nat.mul_pos fewer sound.positive
      rw [datasz, elsz] at room
      omega
    refine .inr (.inr ⟨positive, fewer, ?_⟩)
    by_contra given
    exact alive n fewer (shrink_finis sound fewer run (Option.isSome_iff_ne_none.mpr given))

/-- Capacity is reserved without a change to the elements exactly if no callback is called and the
memory is kept. -/
theorem reserve_spares_iff (junk : Nat → UInt8) (ar : Mnarray) {ops : List ReserveOp}
    (within : Along (reserveStep junk) Admitted ops (Client.fresh ar)) :
    Along (reserveStep junk) (Spared junk) ops (Client.fresh ar) ↔
      Along (reserveStep junk) Harmless ops (Client.fresh ar) := by
  have first : Orderly (Client.fresh ar) := ⟨nofun, nofun, nofun⟩
  apply along_iff_within _ _ first within
  · intro op c admitted orderly
    cases op with
    | base op =>
        apply iff_of_true _ trivial
        rcases step_spec op orderly admitted with ⟨answer, next, run, done⟩
        exact ⟨answer, next, run, fun live => (done.orderly.sound live).fits, done.kept, done.accounts,
          done.orderly.alternates⟩
    | reserve n =>
        constructor
        · exact orderly.harmless admitted
        · exact fun harmless => (orderly.reserve admitted harmless).1
  · intro op c answer next admitted orderly spared stepped
    cases op with
    | base op =>
        rcases @step_spec junk _ op orderly admitted with ⟨answer', next', run, done⟩
        cases stepped.symm.trans run
        exact done.orderly
    | reserve n =>
        have harmless := orderly.harmless admitted spared
        exact (@Orderly.reserve junk _ _ orderly admitted harmless).2 answer next stepped

/-- More capacity for elements that need not be set up. -/
theorem sampleReserve_spares : Along (reserveStep fun _ => 0) (Spared fun _ => 0)
    [.base (.init 0x100000 0 none idle), .reserve 2] (Client.fresh ⟨0, 0, none, 0, none, none⟩) := by
  have first : reserveStep (fun _ => 0) (.base (.init 0x100000 0 none idle))
      (Client.fresh ⟨0, 0, none, 0, none, none⟩) =
        .ok (.code 0, ⟨⟨0x100000, 0, none, 0, none, idle⟩, true, [], false⟩) := rfl
  apply (reserve_spares_iff _ _ _).mpr
  · apply Along.of_step first trivial
    exact ⟨.inr (.inl ⟨by decide, rfl⟩), fun _ _ _ => trivial⟩
  · apply Along.of_step first
    · exact ⟨nofun, by decide, by decide, by decide, nofun, idle_succeeds⟩
    · exact ⟨⟨rfl, by decide, by decide⟩, fun _ _ _ => trivial⟩

/-- Where fewer elements are reserved than there are, an element that stays is torn down. -/
theorem smallReserve_not_spares : ¬ Along (reserveStep fun _ => 0) (Spared fun _ => 0)
    [.base (.init 0x100000 2 idle idle), .reserve 1] (Client.fresh ⟨0, 0, none, 0, none, none⟩) := by
  intro run
  have trace : ((Memory.execute (reserveStep fun _ => 0) [.base (.init 0x100000 2 idle idle)]
      (Client.fresh ⟨0, 0, none, 0, none, none⟩)).bind fun past => (reserveStep (fun _ => 0) (.reserve 1) past.2).map
        fun last => (past.2.array.elnum, past.2.log, last.2.log)) =
      .ok (2, [.init 0, .init 1], [.init 0, .init 1] ++ [.fini 1]) := rfl
  cases ran : Memory.execute (reserveStep fun _ => 0) [.base (.init 0x100000 2 idle idle)]
      (Client.fresh ⟨0, 0, none, 0, none, none⟩) with
  | error fault =>
      rw [ran] at trace
      cases trace
  | ok past =>
      have whole : Along (reserveStep fun _ => 0) (Spared fun _ => 0)
          ([.base (.init 0x100000 2 idle idle)] ++ [.reserve 1]) (Client.fresh ⟨0, 0, none, 0, none, none⟩) := run
      rcases whole.last ran with ⟨answer, next, events, stepped, log, _, _, alive, _⟩
      rw [ran] at trace
      change (reserveStep (fun _ => 0) (.reserve 1) past.2).map _ = _ at trace
      rw [stepped] at trace
      rcases Prod.mk.inj (Except.ok.inj trace) with ⟨two, logs⟩
      rcases Prod.mk.inj logs with ⟨before, after⟩
      rw [before, after] at log
      have torn := List.append_cancel_left log
      apply alive 1 (by rw [two]; decide)
      rw [← torn]
      exact List.mem_singleton_self _

end MnCommon.Arrays
