import MnCommon.Jparse.Operations
import MnCommon.Jparse.Lexemes

/-! Where the position is after an operation, whatever it has found. -/

namespace MnCommon.Jparse

open Bytes (Strz)
open Grammars (IsLetter Closed rfc7159)

variable {S A B : Type} {ctx ctx' ctx₁ mid next : JparseCtx} {taken left ws more body : List UInt8} {delim : UInt8} {s : S}

/-- Neither 0 nor the end of a container. -/
def JparseRes.Fails (res : JparseRes) : Prop := res ≠ .ok ∧ res ≠ .eos ∧ res ≠ .outOfFuel

instance (res : JparseRes) : Decidable res.Fails := inferInstanceAs (Decidable (_ ∧ _))

/-- The position is not behind the data. -/
def JparseCtx.Within (ctx : JparseCtx) : Prop := ctx.pos ≤ ctx.data.length

instance (ctx : JparseCtx) : Decidable ctx.Within := inferInstanceAs (Decidable (_ ≤ _))

/-- As long as there is more to come the position is in what is there. -/
theorem within_iff (inside : ctx.Inside) : ctx.Within ↔ ctx.pos ≤ ctx.text.length := by
  rw [JparseCtx.Within, JparseCtx.text, List.length_append]
  rcases inside.place with done | place
  · rw [done]
    rfl
  · omega

/-- Bytes have come in, and the position has not left them. -/
structure Stays (ctx ctx' : JparseCtx) : Prop where
  later : Later ctx ctx'
  within : ctx.Within → ctx'.Within

theorem Stays.trans (first : Stays ctx ctx₁) (second : Stays ctx₁ ctx') : Stays ctx ctx' :=
  ⟨first.later.trans second.later, fun within => second.within (first.within within)⟩

theorem Stays.of_begun (stays : Stays ctx.begun ctx') : Stays ctx ctx' := ⟨stays.later.of_begun, stays.within⟩

theorem Stays.inside (stays : Stays ctx ctx') : ctx'.Inside := stays.later.inside

/-- Wherever the position has been, it is back. -/
theorem Later.returns (later : Later ctx ctx') (inside : ctx.Inside) : Stays ctx (ctx'.back ctx.pos) :=
  ⟨later.back inside.place, fun within => Nat.le_trans within later.data⟩

theorem Passes.stays (passes : Passes ctx ctx' taken left) (inside : ctx.Inside) : Stays ctx ctx' := by
  refine ⟨passes.later, fun within => ?_⟩
  have place := (within_iff inside).mp within
  apply (within_iff passes.inside).mpr
  have total : ctx.text.length - ctx.pos = (taken ++ left).length := by
    rw [← passes.split, JparseCtx.unread, List.length_drop]
  rw [List.length_append] at total
  rw [passes.later.text, passes.pos]
  omega

theorem scanAll_stays (step : S → UInt8 → Option S) (st : S) (inside : ctx.Inside) :
    Stays ctx (scanAll step st ctx).2.2 := by
  rcases exists_run step st ctx.unread with ⟨taken, st', left, run⟩
  exact (scanAll_run run inside).2.2.stays inside

/-- A loop that has found no character has read all. -/
theorem scanAll_ended (step : S → UInt8 → Option S) (st : S) (inside : ctx.Inside)
    (ended : (scanAll step st ctx).1 = none) : (scanAll step st ctx).2.2.unread = [] := by
  rcases exists_run step st ctx.unread with ⟨taken, st', left, run⟩
  rcases scanAll_run run inside with ⟨head, -, passes⟩
  rw [passes.unread]
  cases left with
  | nil => rfl
  | cons c more =>
      rw [ended] at head
      cases head

theorem scanAll_found (step : S → UInt8 → Option S) (st : S) (inside : ctx.Inside)
    (found : (scanAll step st ctx).1 ≠ none) : (scanAll step st ctx).2.2.pos < (scanAll step st ctx).2.2.data.length :=
  (scanAll_flat step st inside).2.2.1 found

theorem reachNonblank_stays (inside : ctx.Inside) : Stays ctx (reachNonblank ctx).2 := by
  have stays := scanAll_stays (passing jsnIsSpace) () inside
  rw [reachNonblank]
  rcases scanned : scanAll (passing jsnIsSpace) () ctx with ⟨ch, st, next⟩
  rw [scanned] at stays
  cases ch with
  | none => exact stays
  | some ch => exact stays

/-- Behind the spaces there is a character, or nothing. -/
theorem reachNonblank_unread (inside : ctx.Inside) : (reachNonblank ctx).1 = .ok ↔ (reachNonblank ctx).2.unread ≠ [] := by
  rcases exists_blank ctx.unread with ⟨ws, left, blank⟩
  rcases reachNonblank_blank blank inside with ⟨res, passes⟩
  rw [res, passes.unread]
  cases left with
  | nil => exact ⟨nofun, fun wrong => absurd rfl wrong⟩
  | cons c more => exact ⟨fun _ => List.cons_ne_nil _ _, fun _ => rfl⟩

theorem reachNonblank_forth (inside : ctx.Inside) : ctx.pos ≤ (reachNonblank ctx).2.pos := by
  rcases exists_blank ctx.unread with ⟨ws, left, blank⟩
  rw [(reachNonblank_blank blank inside).2.pos]
  exact Nat.le_add_right _ _

theorem reachBody_stays (delim : UInt8) (inside : ctx.Inside) : Stays ctx (reachBody delim ctx).2 := by
  have stays := scanAll_stays (passing fun ch => ch ≠ delim && jsnIsSpace ch) () inside
  have found := scanAll_found (passing fun ch => ch ≠ delim && jsnIsSpace ch) () inside
  have later := (reachBody_steady delim ctx inside).2
  rw [reachBody] at later ⊢
  rcases scanned : scanAll (passing fun ch => ch ≠ delim && jsnIsSpace ch) () ctx with ⟨ch, st, next⟩
  rw [scanned] at stays found later
  cases ch with
  | none => exact stays
  | some ch =>
      dsimp only at later ⊢
      split_ifs at later ⊢
      · exact ⟨later, fun _ => found (Option.some_ne_none ch)⟩
      · exact stays.later.returns inside

/-- A delimiter that has been passed is in the data. -/
theorem reachBody_within (inside : ctx.Inside) (reached : (reachBody delim ctx).1 = .ok) :
    (reachBody delim ctx).2.Within := by
  have found := scanAll_found (passing fun ch => ch ≠ delim && jsnIsSpace ch) () inside
  rw [reachBody] at reached ⊢
  rcases scanned : scanAll (passing fun ch => ch ≠ delim && jsnIsSpace ch) () ctx with ⟨ch, st, next⟩
  rw [scanned] at found reached
  cases ch with
  | none => cases reached
  | some ch =>
      dsimp only at reached ⊢
      split_ifs at reached ⊢
      exact found (Option.some_ne_none ch)

/-- What a delimiter that is looked for leaves behind. -/
theorem reachBody_cases (mark : ¬ rfc7159.space delim) (inside : ctx.Inside) :
    ((reachBody delim ctx).1 = .ok ∧ ctx.pos < (reachBody delim ctx).2.pos) ∨
      ((reachBody delim ctx).1 = .reach delim 1 ∧ (reachBody delim ctx).2.unread = []) ∨
      ((reachBody delim ctx).1 = .reach delim 2 ∧ (reachBody delim ctx).2.pos = ctx.pos ∧
        (reachBody delim ctx).2.unread ≠ []) := by
  rcases exists_blank ctx.unread with ⟨ws, left, blank⟩
  cases left with
  | nil =>
      rcases reachBody_ended blank mark inside with ⟨res, passes⟩
      exact .inr (.inl ⟨res, passes.unread⟩)
  | cons c more =>
      by_cases same : c = delim
      · subst same
        rcases reachBody_found blank inside with ⟨res, passes⟩
        refine .inl ⟨res, ?_⟩
        rw [passes.pos, List.length_append, List.length_singleton]
        omega
      · rcases reachBody_other blank same mark inside with ⟨res, passes⟩
        refine .inr (.inr ⟨res, passes.pos, ?_⟩)
        rw [passes.unread, blank.split]
        simp

theorem reachBody_further (mark : ¬ rfc7159.space delim) (inside : ctx.Inside) (reached : (reachBody delim ctx).1 = .ok) :
    ctx.pos < (reachBody delim ctx).2.pos := by
  rcases reachBody_cases mark inside with ⟨-, further⟩ | ⟨ended, -⟩ | ⟨other, -⟩
  · exact further
  · rw [ended] at reached
    cases reached
  · rw [other] at reached
    cases reached

theorem probeBody_stays (delim : UInt8) (inside : ctx.Inside) : Stays ctx (probeBody delim ctx).2 := by
  have stays := scanAll_stays (passing fun ch => ch ≠ delim && jsnIsSpace ch) () inside
  rw [probeBody]
  rcases scanned : scanAll (passing fun ch => ch ≠ delim && jsnIsSpace ch) () ctx with ⟨ch, st, next⟩
  rw [scanned] at stays
  cases ch with
  | none => exact stays
  | some ch =>
      dsimp only
      split_ifs
      · exact stays
      · exact stays.later.returns inside

theorem jparseExpectTok_stays (inside : ctx.Inside) : Stays ctx (jparseExpectTok ctx).2.1 := by
  have stays := (reachNonblank_stays inside.begun).of_begun
  rw [jparseExpectTok]
  rcases reached : reachNonblank ctx.begun with ⟨res, next⟩
  rw [reached] at stays
  cases res with
  | ok => exact stays.trans (scanAll_stays _ () stays.inside)
  | _ => exact stays

/-- A token fails at the end of the data only. -/
theorem jparseExpectTok_ended (inside : ctx.Inside) (failed : (jparseExpectTok ctx).1 ≠ .ok) :
    (jparseExpectTok ctx).2.1.unread = [] := by
  have stays := reachNonblank_stays inside.begun
  have unread := reachNonblank_unread inside.begun
  rw [jparseExpectTok] at failed ⊢
  rcases reached : reachNonblank ctx.begun with ⟨res, next⟩
  rw [reached] at stays unread failed
  cases res with
  | ok =>
      have ended : (scanAll (passing fun ch => decide (IsLetter ch)) () next).1 = none := by
        by_contra found
        exact failed (if_neg found)
      exact scanAll_ended _ () stays.inside ended
  | _ =>
      by_contra more
      cases unread.mpr more

theorem expectMaybeNull_stays (inside : ctx.Inside) : Stays ctx (expectMaybeNull ctx).2 := by
  have stays := (jparseExpectTok_stays inside.begun).of_begun
  rw [expectMaybeNull]
  rcases read : jparseExpectTok ctx.begun with ⟨res, next, v⟩
  rw [read] at stays
  cases res with
  | ok =>
      dsimp only
      split_ifs
      · exact stays
      · exact stays.later.returns inside
  | _ => exact stays.later.returns inside

theorem expectMaybeNull_cases (ctx : JparseCtx) :
    (expectMaybeNull ctx).1 = .ok ∨ (expectMaybeNull ctx).1 = .notNull ∧ (expectMaybeNull ctx).2.pos = ctx.pos := by
  rw [expectMaybeNull]
  rcases jparseExpectTok ctx.begun with ⟨res, next, v⟩
  cases res with
  | ok =>
      dsimp only
      split_ifs
      · exact .inl rfl
      · exact .inr ⟨rfl, rfl⟩
  | _ => exact .inr ⟨rfl, rfl⟩

theorem jparseExpectBool_stays (inside : ctx.Inside) : Stays ctx (jparseExpectBool ctx).2.1 := by
  have stays := (jparseExpectTok_stays inside.begun).of_begun
  rw [jparseExpectBool]
  rcases read : jparseExpectTok ctx.begun with ⟨res, next, v⟩
  rw [read] at stays
  cases res with
  | ok =>
      dsimp only
      split_ifs
      · exact stays
      · exact stays
      · exact stays.later.returns inside
  | _ => exact stays.later.returns inside

theorem jparseExpectBool_cases (ctx : JparseCtx) :
    (jparseExpectBool ctx).1 = .ok ∨
      (jparseExpectBool ctx).1.Fails ∧ (jparseExpectBool ctx).2.1.pos = ctx.pos := by
  rw [jparseExpectBool]
  rcases jparseExpectTok ctx.begun with ⟨res, next, v⟩
  cases res with
  | ok =>
      dsimp only
      split_ifs
      · exact .inl rfl
      · exact .inl rfl
      · exact .inr ⟨⟨by simp, by simp, by simp⟩, rfl⟩
  | _ => exact .inr ⟨⟨by simp, by simp, by simp⟩, rfl⟩

theorem jparseExpectInt_stays (inside : ctx.Inside) : Stays ctx (jparseExpectInt ctx).2.1 := by
  have stays := (reachNonblank_stays inside.begun).of_begun
  rw [jparseExpectInt]
  rcases reached : reachNonblank ctx.begun with ⟨res, next⟩
  rw [reached] at stays
  cases res with
  | ok =>
      have stays' := stays.trans (scanAll_stays intStep { first := true, val := 0, sign := 1 } stays.inside)
      dsimp only
      rcases scanned : scanAll intStep { first := true, val := 0, sign := 1 } next with ⟨ch, st, last⟩
      rw [scanned] at stays'
      dsimp only
      split_ifs
      · exact stays'
      · exact stays'.later.returns inside
      · exact stays'
  | _ => exact stays

/-- What is no number is not taken. -/
theorem jparseExpectInt_cases (inside : ctx.Inside) :
    (jparseExpectInt ctx).1 = .ok ∨ (jparseExpectInt ctx).2.1.unread = [] ∨
      (jparseExpectInt ctx).2.1.pos = ctx.pos := by
  have stays := reachNonblank_stays inside.begun
  have unread := reachNonblank_unread inside.begun
  rw [jparseExpectInt]
  rcases reached : reachNonblank ctx.begun with ⟨res, next⟩
  rw [reached] at stays unread
  cases res with
  | ok =>
      have ended := scanAll_ended intStep { first := true, val := 0, sign := 1 } stays.inside
      dsimp only
      rcases scanned : scanAll intStep { first := true, val := 0, sign := 1 } next with ⟨ch, st, last⟩
      rw [scanned] at ended
      dsimp only
      split_ifs with none
      · exact .inr (.inl (ended none))
      · exact .inr (.inr rfl)
      · exact .inl rfl
  | _ =>
      refine .inr (.inl ?_)
      by_contra more
      cases unread.mpr more

theorem jparseExpectFloat_stays (inside : ctx.Inside) : Stays ctx (jparseExpectFloat ctx).2.1 := by
  have stays := (reachNonblank_stays inside.begun).of_begun
  rw [jparseExpectFloat]
  rcases reached : reachNonblank ctx.begun with ⟨res, next⟩
  rw [reached] at stays
  cases res with
  | ok => exact stays.trans (scanAll_stays floatStep .floatIn stays.inside)
  | _ => exact stays

theorem jparseExpectFloat_ended (inside : ctx.Inside) (failed : (jparseExpectFloat ctx).1 ≠ .ok) :
    (jparseExpectFloat ctx).2.1.unread = [] := by
  have stays := reachNonblank_stays inside.begun
  have unread := reachNonblank_unread inside.begun
  rw [jparseExpectFloat] at failed ⊢
  rcases reached : reachNonblank ctx.begun with ⟨res, next⟩
  rw [reached] at stays unread failed
  cases res with
  | ok =>
      have ended : (scanAll floatStep .floatIn next).1 = none := by
        by_contra found
        exact failed (if_neg found)
      exact scanAll_ended floatStep .floatIn stays.inside ended
  | _ =>
      by_contra more
      cases unread.mpr more

/-! Strings. -/

/-- A string whose end is not in the text. -/
def Unterminated (rest : List UInt8) : Prop :=
  ∃ ws body, rest = ws ++ 34 :: body ∧ rfc7159.Spaces ws ∧ ∀ front back, body = front ++ 34 :: back → ¬ Closed front

/-- The loop of a string stops at its end. -/
theorem strRun_stops {st : StrState × Bool} (run : Run strStep (.str, false) more body st left) :
    left = [] ∨ ∃ back, left = 34 :: back ∧ Closed body := by
  cases left with
  | nil => exact .inl rfl
  | cons c back =>
      have stop := run.stops c rfl
      rcases st with ⟨st, flag⟩
      cases st with
      | esc => cases stop
      | str =>
          rw [strStep] at stop
          split_ifs at stop with slash quote
          exact .inr ⟨back, by rw [quote], closed_of_strRun run.run⟩

theorem not_closed_of_strRun {st : StrState × Bool} {front back : List UInt8}
    (run : (front ++ 34 :: back).foldlM strStep (.str, false) = some st) : ¬ Closed front := by
  intro closed
  rw [List.foldlM_append, strRun_of_closed closed false] at run
  cases run

/-- At the end of the file the position is behind the data. -/
theorem jparseExpectStr_ended {st : StrState × Bool} (blank : Blank ctx.unread ws (34 :: more))
    (run : Run strStep (.str, false) more more st []) (inside : ctx.Inside) :
    (jparseExpectStr ctx).1 = .expectStr 2 ∧ (jparseExpectStr ctx).2.1.unread = [] ∧
      ¬ (jparseExpectStr ctx).2.1.Within := by
  have later := (jparseExpectStr_reads ctx inside).later
  rcases reachBody_found blank.begun inside.begun with ⟨res, passes⟩
  rw [jparseExpectStr, reachDquote] at later ⊢
  rcases reached : reachBody 34 ctx.begun with ⟨res', next⟩
  rw [reached] at res passes later
  change res' = .ok at res
  subst res
  have run' : Run strStep (.str, false) next.unread more st [] := ⟨passes.unread.trans run.split, run.run, run.stops⟩
  rcases scanAll_run run' passes.inside with ⟨head, -, passes'⟩
  dsimp only at later ⊢
  rcases scanned : scanAll strStep (.str, false) next with ⟨ch, st', last⟩
  rw [scanned] at head passes' later
  change ch = none at head
  subst head
  have unread : last.text.drop last.pos = [] := passes'.unread
  have ended : last.text.length ≤ last.pos := List.drop_eq_nil_iff.mp unread
  refine ⟨rfl, ?_, ?_⟩
  · change last.text.drop (last.pos + 1) = []
    exact List.drop_eq_nil_of_le (Nat.le_succ_of_le ended)
  · intro within
    have place : last.pos + 1 ≤ last.text.length := (within_iff later.inside).mp within
    omega

theorem jparseExpectStr_unterminated (unterminated : Unterminated ctx.unread) (inside : ctx.Inside) :
    (jparseExpectStr ctx).1 = .expectStr 2 ∧ (jparseExpectStr ctx).2.1.unread = [] ∧
      ¬ (jparseExpectStr ctx).2.1.Within := by
  rcases unterminated with ⟨ws, more, split, spaces, unclosed⟩
  rcases exists_run strStep (.str, false) more with ⟨body, st, left, run⟩
  have ended : left = [] := by
    rcases strRun_stops run with ended | ⟨back, rfl, closed⟩
    · exact ended
    · exact absurd closed (unclosed body back run.split)
  subst ended
  have whole : body = more := by rw [run.split, List.append_nil]
  subst whole
  exact jparseExpectStr_ended (.of_cons split spaces (by simp [rfc7159])) run inside

theorem jparseExpectStr_terminated (terminated : ¬ Unterminated ctx.unread) (inside : ctx.Inside) :
    ((jparseExpectStr ctx).1 = .ok ∧ ctx.pos < (jparseExpectStr ctx).2.1.pos ∨
      (jparseExpectStr ctx).1 = .expectStr 1 ∧ (jparseExpectStr ctx).2.1.pos = ctx.pos) ∧
      Stays ctx (jparseExpectStr ctx).2.1 := by
  have mark : ¬ rfc7159.space 34 := by simp [rfc7159]
  rcases exists_blank ctx.unread with ⟨ws, left, blank⟩
  cases left with
  | nil =>
      rcases reachBody_ended blank.begun mark inside.begun with ⟨res, passes⟩
      rw [jparseExpectStr, reachDquote]
      rcases reached : reachBody 34 ctx.begun with ⟨res', next⟩
      rw [reached] at res passes
      change res' = _ at res
      subst res
      exact ⟨.inr ⟨rfl, rfl⟩, passes.of_begun.later.returns inside⟩
  | cons c more =>
      by_cases quote : c = 34
      · subst quote
        rcases exists_run strStep (.str, false) more with ⟨body, st, left, run⟩
        rcases strRun_stops run with rfl | ⟨back, rfl, closed⟩
        · have whole : body = more := by rw [run.split, List.append_nil]
          subst whole
          refine absurd ⟨ws, body, blank.split, blank.spaces, ?_⟩ terminated
          intro front back split
          have taken := run.run
          rw [split] at taken
          exact not_closed_of_strRun taken
        · have blank' : Blank ctx.unread ws (34 :: (body ++ 34 :: back)) := by
            rw [← run.split]
            exact blank
          rcases jparseExpectStr_closed blank' closed inside with ⟨done, passes, -⟩
          refine ⟨.inl ⟨done, ?_⟩, passes.stays inside⟩
          rw [passes.pos, List.length_append, List.length_cons]
          omega
      · rcases jparseExpectStr_other blank quote inside with ⟨res, passes, -⟩
        exact ⟨.inr ⟨res, passes.pos⟩, passes.stays inside⟩

end MnCommon.Jparse
