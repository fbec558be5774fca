import MnCommon.Jparse.Progress

/-! Where the loops over characters stop. -/

namespace MnCommon.Jparse

open Bytes (Strz bytesJsonUnescape)
open Grammars (IsLetter IsDigit Closed rfc7159)

variable {S : Type} {step : S → UInt8 → Option S} {st st' : S} {ctx ctx₁ ctx' : JparseCtx}
  {rest taken taken' mid left more ws letters body chars : List UInt8} {delim c : UInt8}

/-- What has not been read. -/
def JparseCtx.unread (ctx : JparseCtx) : List UInt8 := ctx.text.drop ctx.pos

theorem ahead_eq (ctx : JparseCtx) : ctx.ahead = ctx.unread.length := (List.length_drop ..).symm

theorem unread_lt (ctx : JparseCtx) : ctx.unread.length < ctx.ahead + 1 := by
  rw [ahead_eq]
  exact Nat.lt_succ_self _

/-- An operation has gone past `taken`. -/
structure Passes (ctx ctx' : JparseCtx) (taken left : List UInt8) : Prop where
  later : Later ctx ctx'
  split : ctx.unread = taken ++ left
  pos : ctx'.pos = ctx.pos + taken.length

theorem Passes.unread (passes : Passes ctx ctx' taken left) : ctx'.unread = left := by
  rw [JparseCtx.unread, passes.later.text, passes.pos, ← List.drop_drop, ← JparseCtx.unread, passes.split, List.drop_left]

theorem Passes.inside (passes : Passes ctx ctx' taken left) : ctx'.Inside := passes.later.inside

theorem Passes.trans (first : Passes ctx ctx₁ taken mid) (second : Passes ctx₁ ctx' taken' left) :
    Passes ctx ctx' (taken ++ taken') left where
  later := first.later.trans second.later
  split := by rw [first.split, ← first.unread, second.split, List.append_assoc]
  pos := by rw [second.pos, first.pos, List.length_append, Nat.add_assoc]

theorem Passes.of_begun (passes : Passes ctx.begun ctx' taken left) : Passes ctx ctx' taken left :=
  ⟨passes.later.of_begun, passes.split, passes.pos⟩

theorem Passes.back (later : Later ctx ctx') (inside : ctx.Inside) : Passes ctx (ctx'.back ctx.pos) [] ctx.unread :=
  ⟨later.back inside.place, rfl, rfl⟩

theorem Passes.since (passes : Passes ctx ctx' taken left) : ctx'.since ctx.pos = taken := by
  rw [← since_flat passes.inside.place]
  change (ctx'.text.take ctx'.pos).drop ctx.pos = taken
  rw [passes.later.text, passes.pos, List.drop_take, ← JparseCtx.unread, passes.split, Nat.add_sub_cancel_left,
    List.take_left]

/-- What a loop reads, and where it stops. -/
structure Run (step : S → UInt8 → Option S) (st : S) (rest taken : List UInt8) (st' : S) (left : List UInt8) : Prop where
  split : rest = taken ++ left
  run : taken.foldlM step st = some st'
  stops : ∀ ch ∈ left.head?, step st' ch = none

theorem exists_run (step : S → UInt8 → Option S) (st : S) (rest : List UInt8) :
    ∃ taken st' left, Run step st rest taken st' left := by
  induction rest generalizing st with
  | nil => exact ⟨[], st, [], rfl, rfl, nofun⟩
  | cons ch rest ih =>
      cases moved : step st ch with
      | none =>
          refine ⟨[], st, ch :: rest, rfl, rfl, ?_⟩
          intro x head
          cases head
          exact moved
      | some st₁ =>
          rcases ih st₁ with ⟨taken, st', left, same, run, stops⟩
          refine ⟨ch :: taken, st', left, by rw [same]; rfl, ?_, stops⟩
          rw [List.foldlM_cons, moved]
          exact run

theorem fetch_rest (inside : ctx.Inside) : ctx.fetch.1 = ctx.unread.head? := by
  have first := congrArg Prod.fst (fetch_flat inside).1
  change ctx.flat.fetch.1 = ctx.fetch.1 at first
  rw [← first, JparseCtx.fetch, JparseCtx.unread, List.head?_drop]
  change (if ctx.pos < ctx.text.length then (some (ctx.text.getD ctx.pos 0), ctx.flat) else (none, ctx.flat)).1 = _
  split_ifs with within
  · simp [within]
  · rw [List.getElem?_eq_none (Nat.le_of_not_lt within)]

theorem scan_run (run : Run step st ctx.unread taken st' left) (inside : ctx.Inside) {fuel : Nat}
    (enough : taken.length < fuel) :
    (scan step fuel st ctx).1 = left.head? ∧ (scan step fuel st ctx).2.1 = st' ∧
      (scan step fuel st ctx).2.2.pos = ctx.pos + taken.length := by
  induction taken generalizing st ctx fuel with
  | nil =>
      cases fuel with
      | zero => exact absurd enough (Nat.not_lt_zero _)
      | succ fuel =>
          have first := fetch_rest inside
          have pos := (fetch_flat inside).2.2.1
          have here : ctx.unread = left := run.split
          have same : st = st' := Option.some.inj run.run
          rw [here] at first
          rw [scan]
          rcases fetched : ctx.fetch with ⟨ch, next⟩
          rw [fetched] at first pos
          change ch = left.head? at first
          cases ch with
          | none => exact ⟨first, same, pos⟩
          | some ch =>
              have stop := run.stops ch first.symm
              rw [← same] at stop
              dsimp only
              rw [stop]
              exact ⟨first, same, pos⟩
  | cons ch taken ih =>
      cases fuel with
      | zero => exact absurd enough (Nat.not_lt_zero _)
      | succ fuel =>
          have first := fetch_rest inside
          rcases fetch_flat inside with ⟨-, later, pos, within⟩
          rw [run.split] at first
          rw [scan]
          rcases fetched : ctx.fetch with ⟨x, next⟩
          rw [fetched] at first later pos within
          change x = some ch at first
          change next.pos = ctx.pos at pos
          subst first
          have moved := run.run
          rw [List.foldlM_cons] at moved
          cases stepped : step st ch with
          | none =>
              rw [stepped] at moved
              cases moved
          | some st₁ =>
              rw [stepped] at moved
              have here : next.pos < next.data.length := by
                rw [pos]
                exact within (by simp)
              have rest' : JparseCtx.unread { next with pos := next.pos + 1 } = taken ++ left := by
                change next.text.drop (next.pos + 1) = taken ++ left
                have whole : ctx.text.drop ctx.pos = ch :: (taken ++ left) := run.split
                rw [later.text, pos, ← List.drop_drop, whole]
                rfl
              have onward : Run step st₁ (JparseCtx.unread { next with pos := next.pos + 1 }) taken st' left :=
                ⟨rest', moved, run.stops⟩
              have short : taken.length < fuel := Nat.lt_of_succ_lt_succ enough
              rcases ih onward ⟨.inr here, later.inside.chunks⟩ short with ⟨head, state, place⟩
              dsimp only
              rw [stepped]
              refine ⟨head, state, place.trans ?_⟩
              change next.pos + 1 + taken.length = ctx.pos + (taken.length + 1)
              omega

theorem scanAll_run (run : Run step st ctx.unread taken st' left) (inside : ctx.Inside) :
    (scanAll step st ctx).1 = left.head? ∧ (scanAll step st ctx).2.1 = st' ∧
      Passes ctx (scanAll step st ctx).2.2 taken left := by
  have short : taken.length < ctx.ahead + 1 := by
    rw [ahead_eq, run.split, List.length_append]
    omega
  rcases scan_run run inside short with ⟨head, state, pos⟩
  exact ⟨head, state, (scanAll_flat step st inside).2.1, run.split, pos⟩

theorem foldlM_passing {P : UInt8 → Bool} (all : ∀ ch ∈ taken, P ch = true) :
    taken.foldlM (passing P) () = some () := by
  induction taken with
  | nil => rfl
  | cons ch taken ih =>
      rcases List.forall_mem_cons.mp all with ⟨first, others⟩
      rw [List.foldlM_cons, passing, if_pos first]
      exact ih others

theorem passing_run {P : UInt8 → Bool} (same : rest = taken ++ left) (all : ∀ ch ∈ taken, P ch = true)
    (stops : ∀ ch ∈ left.head?, P ch = false) : Run (passing P) () rest taken () left := by
  refine ⟨same, foldlM_passing all, fun ch head => ?_⟩
  rw [passing, stops ch head]
  rfl

theorem jsnIsSpace_iff : jsnIsSpace c = true ↔ rfc7159.space c := by
  simp only [jsnIsSpace, rfc7159, Bool.or_eq_true, decide_eq_true_eq, or_assoc]
  grind

/-- The spaces at the beginning. -/
structure Blank (rest ws left : List UInt8) : Prop where
  split : rest = ws ++ left
  spaces : rfc7159.Spaces ws
  stops : ∀ ch ∈ left.head?, ¬ rfc7159.space ch

theorem exists_blank (rest : List UInt8) : ∃ ws left, Blank rest ws left := by
  induction rest with
  | nil => exact ⟨[], [], rfl, nofun, nofun⟩
  | cons ch rest ih =>
      by_cases space : rfc7159.space ch
      · rcases ih with ⟨ws, left, same, spaces, stops⟩
        exact ⟨ch :: ws, left, by rw [same]; rfl, List.forall_mem_cons.mpr ⟨space, spaces⟩, stops⟩
      · refine ⟨[], ch :: rest, rfl, nofun, ?_⟩
        intro x head
        cases head
        exact space

theorem Blank.of_cons (split : rest = ws ++ c :: more) (spaces : rfc7159.Spaces ws) (mark : ¬ rfc7159.space c) :
    Blank rest ws (c :: more) := by
  refine ⟨split, spaces, ?_⟩
  intro x head
  cases head
  exact mark

theorem Blank.begun (blank : Blank ctx.unread ws left) : Blank ctx.begun.unread ws left := blank

theorem reachNonblank_blank (blank : Blank ctx.unread ws left) (inside : ctx.Inside) :
    (reachNonblank ctx).1 = (if left = [] then .reachNonblank 1 else .ok) ∧ Passes ctx (reachNonblank ctx).2 ws left := by
  have run : Run (passing jsnIsSpace) () ctx.unread ws () left := by
    apply passing_run blank.split
    · exact fun ch among => jsnIsSpace_iff.mpr (blank.spaces ch among)
    · exact fun ch head => Bool.eq_false_iff.mpr fun wrong => blank.stops ch head (jsnIsSpace_iff.mp wrong)
  rcases scanAll_run run inside with ⟨head, -, passes⟩
  rw [reachNonblank]
  rcases scanned : scanAll (passing jsnIsSpace) () ctx with ⟨ch, st, next⟩
  rw [scanned] at head passes
  change ch = left.head? at head
  subst head
  cases left with
  | nil => exact ⟨rfl, passes⟩
  | cons c more => exact ⟨rfl, passes⟩

theorem body_run (blank : Blank rest ws left) (mark : ¬ rfc7159.space delim) :
    Run (passing fun ch => ch ≠ delim && jsnIsSpace ch) () rest ws () left := by
  apply passing_run blank.split
  · intro ch among
    have space := blank.spaces ch among
    have other : ch ≠ delim := fun same => mark (same ▸ space)
    simp [other, jsnIsSpace_iff.mpr space]
  · intro ch head
    have text : jsnIsSpace ch = false := Bool.eq_false_iff.mpr fun wrong => blank.stops ch head (jsnIsSpace_iff.mp wrong)
    simp [text]

theorem reachBody_found (blank : Blank ctx.unread ws (delim :: more)) (inside : ctx.Inside) :
    (reachBody delim ctx).1 = .ok ∧ Passes ctx (reachBody delim ctx).2 (ws ++ [delim]) more := by
  have mark := blank.stops delim rfl
  have later := (reachBody_steady delim ctx inside).2
  rcases scanAll_run (body_run blank mark) inside with ⟨head, -, passes⟩
  rw [reachBody] at later ⊢
  rcases scanned : scanAll (passing fun ch => ch ≠ delim && jsnIsSpace ch) () ctx with ⟨ch, st, next⟩
  rw [scanned] at head passes later
  change ch = some delim at head
  subst head
  dsimp only at later ⊢
  rw [if_pos rfl] at later ⊢
  refine ⟨rfl, later, ?_, ?_⟩
  · rw [passes.split, List.append_assoc]
    rfl
  · change next.pos + 1 = _
    rw [passes.pos, List.length_append]
    rfl

theorem reachBody_other (blank : Blank ctx.unread ws (c :: more)) (other : c ≠ delim) (mark : ¬ rfc7159.space delim)
    (inside : ctx.Inside) :
    (reachBody delim ctx).1 = .reach delim 2 ∧ Passes ctx (reachBody delim ctx).2 [] ctx.unread := by
  rcases scanAll_run (body_run blank mark) inside with ⟨head, -, passes⟩
  rw [reachBody]
  rcases scanned : scanAll (passing fun ch => ch ≠ delim && jsnIsSpace ch) () ctx with ⟨ch, st, next⟩
  rw [scanned] at head passes
  change ch = some c at head
  subst head
  dsimp only
  rw [if_neg other]
  exact ⟨rfl, .back passes.later inside⟩

theorem reachBody_ended (blank : Blank ctx.unread ws []) (mark : ¬ rfc7159.space delim) (inside : ctx.Inside) :
    (reachBody delim ctx).1 = .reach delim 1 ∧ Passes ctx (reachBody delim ctx).2 ws [] := by
  rcases scanAll_run (body_run blank mark) inside with ⟨head, -, passes⟩
  rw [reachBody]
  rcases scanned : scanAll (passing fun ch => ch ≠ delim && jsnIsSpace ch) () ctx with ⟨ch, st, next⟩
  rw [scanned] at head passes
  change ch = none at head
  subst head
  exact ⟨rfl, passes⟩

theorem reachBody_ok (reached : (reachBody delim ctx).1 = .ok) (mark : ¬ rfc7159.space delim) (inside : ctx.Inside) :
    ∃ ws more, rfc7159.Spaces ws ∧ Passes ctx (reachBody delim ctx).2 (ws ++ [delim]) more := by
  rcases exists_blank ctx.unread with ⟨ws, left, blank⟩
  cases left with
  | nil =>
      rw [(reachBody_ended blank mark inside).1] at reached
      cases reached
  | cons c more =>
      by_cases same : c = delim
      · subst same
        exact ⟨ws, more, blank.spaces, (reachBody_found blank inside).2⟩
      · rw [(reachBody_other blank same mark inside).1] at reached
        cases reached

/-- At a character that is no space. -/
theorem probeBody_first (here : ctx.unread = c :: more) (text : ¬ rfc7159.space c) (mark : ¬ rfc7159.space delim)
    (inside : ctx.Inside) :
    ((probeBody delim ctx).1 = .ok ↔ c = delim) ∧ Passes ctx (probeBody delim ctx).2 [] ctx.unread := by
  have blank : Blank ctx.unread [] (c :: more) := .of_cons here rfc7159.spaces_nil text
  rcases scanAll_run (body_run blank mark) inside with ⟨head, -, passes⟩
  rw [probeBody]
  rcases scanned : scanAll (passing fun ch => ch ≠ delim && jsnIsSpace ch) () ctx with ⟨ch, st, next⟩
  rw [scanned] at head passes
  change ch = some c at head
  subst head
  dsimp only
  split_ifs with same
  · rw [here]
    exact ⟨⟨fun _ => same, fun _ => rfl⟩, passes⟩
  · exact ⟨⟨by simp, fun wrong => absurd wrong same⟩, .back passes.later inside⟩

end MnCommon.Jparse
