import Mathlib.Data.List.TakeWhile
import MnCommon.Jparse.Scan

/-! The lexemes that the pull parser takes. -/

namespace MnCommon.Jparse

open Bytes (Strz bytesJsonUnescape)
open Grammars (IsLetter Closed rfc7159)

variable {ctx : JparseCtx} {rest left more ws letters body chars : List UInt8} {c : UInt8} {st : FloatState}
  {flag flag' : Bool}

/-- The letters behind the spaces. -/
structure Word (rest ws letters left : List UInt8) : Prop where
  blank : Blank rest ws (letters ++ left)
  letters : ∀ ch ∈ letters, IsLetter ch
  stops : ∀ ch ∈ left.head?, ¬ IsLetter ch

theorem exists_word (rest : List UInt8) : ∃ ws letters left, Word rest ws letters left := by
  rcases exists_blank rest with ⟨ws, more, blank⟩
  have whole : more.takeWhile (fun ch => IsLetter ch) ++ more.dropWhile (fun ch => IsLetter ch) = more :=
    List.takeWhile_append_dropWhile
  refine ⟨ws, more.takeWhile fun ch => IsLetter ch, more.dropWhile fun ch => IsLetter ch, ?_, ?_, ?_⟩
  · rw [whole]
    exact blank
  · intro ch among
    have letter := List.mem_takeWhile_imp among
    exact of_decide_eq_true letter
  · intro ch head
    have stop := List.head?_dropWhile_not (fun ch => decide (IsLetter ch)) more
    rw [Option.mem_def.mp head] at stop
    simpa using stop

theorem Word.none (split : rest = ws ++ c :: more) (spaces : rfc7159.Spaces ws) (mark : ¬ rfc7159.space c)
    (other : ¬ IsLetter c) : Word rest ws [] (c :: more) := by
  refine ⟨.of_cons split spaces mark, nofun, ?_⟩
  intro ch head
  cases head
  exact other

theorem Word.begun (word : Word ctx.unread ws letters left) : Word ctx.begun.unread ws letters left := word

theorem jparseExpectTok_word (word : Word ctx.unread ws letters left) (inside : ctx.Inside) :
    ((jparseExpectTok ctx).1 = .ok ↔ left ≠ []) ∧
      (left ≠ [] → Passes ctx (jparseExpectTok ctx).2.1 (ws ++ letters) left ∧
        (jparseExpectTok ctx).2.2 = some ⟨letters⟩) := by
  rcases reachNonblank_blank word.begun.blank inside.begun with ⟨res, passes⟩
  rw [jparseExpectTok]
  rcases reached : reachNonblank ctx.begun with ⟨res', next⟩
  rw [reached] at res passes
  change res' = _ at res
  subst res
  by_cases none : letters ++ left = []
  · rw [if_pos none]
    rcases List.append_eq_nil_iff.mp none with ⟨-, rfl⟩
    exact ⟨⟨by simp, fun wrong => absurd rfl wrong⟩, fun wrong => absurd rfl wrong⟩
  · rw [if_neg none]
    have run : Run (passing fun ch => IsLetter ch) () next.unread letters () left := by
      apply passing_run passes.unread
      · exact fun ch among => decide_eq_true (word.letters ch among)
      · exact fun ch head => decide_eq_false (word.stops ch head)
    rcases scanAll_run run passes.inside with ⟨head, -, passes'⟩
    dsimp only
    rcases scanned : scanAll (passing fun ch => IsLetter ch) () next with ⟨ch, st, last⟩
    rw [scanned] at head passes'
    change ch = left.head? at head
    subst head
    have token := passes'.since
    cases left with
    | nil => exact ⟨⟨by simp, fun wrong => absurd rfl wrong⟩, fun wrong => absurd rfl wrong⟩
    | cons c more =>
        refine ⟨⟨fun _ => by simp, fun _ => rfl⟩, fun _ => ⟨(passes.trans passes').of_begun, ?_⟩⟩
        exact congrArg (fun chars => some (Strz.mk chars)) token

theorem expectMaybeNull_found (word : Word ctx.unread ws [110, 117, 108, 108] left) (ended : left ≠ [])
    (inside : ctx.Inside) :
    (expectMaybeNull ctx).1 = .ok ∧ Passes ctx (expectMaybeNull ctx).2 (ws ++ [110, 117, 108, 108]) left := by
  rcases jparseExpectTok_word word.begun inside.begun with ⟨res, token⟩
  rcases token ended with ⟨passes, value⟩
  have done := res.mpr ended
  rw [expectMaybeNull]
  rcases read : jparseExpectTok ctx.begun with ⟨res', next, v⟩
  rw [read] at done passes value
  change res' = .ok at done
  change v = _ at value
  subst done value
  dsimp only
  rw [if_pos rfl]
  exact ⟨rfl, passes.of_begun⟩

theorem expectMaybeNull_other (word : Word ctx.unread ws letters left)
    (other : left ≠ [] → letters ≠ [110, 117, 108, 108]) (inside : ctx.Inside) :
    (expectMaybeNull ctx).1 = .notNull ∧ Passes ctx (expectMaybeNull ctx).2 [] ctx.unread := by
  rcases jparseExpectTok_word word.begun inside.begun with ⟨res, token⟩
  have later := (jparseExpectTok_onward inside.begun).of_begun.later
  rw [expectMaybeNull]
  rcases read : jparseExpectTok ctx.begun with ⟨res', next, v⟩
  rw [read] at res token later
  cases res' with
  | ok =>
      have ended := res.mp rfl
      have value : v = some ⟨letters⟩ := (token ended).2
      have wrong : v ≠ some ⟨[110, 117, 108, 108]⟩ := by
        rw [value]
        exact fun same => other ended (Strz.mk.inj (Option.some.inj same))
      dsimp only
      rw [if_neg wrong]
      exact ⟨rfl, .back later inside⟩
  | _ => exact ⟨rfl, .back later inside⟩

theorem jparseExpectBool_found (word : Word ctx.unread ws letters left) (ended : left ≠ [])
    (literal : letters = [116, 114, 117, 101] ∨ letters = [102, 97, 108, 115, 101]) (inside : ctx.Inside) :
    (jparseExpectBool ctx).1 = .ok ∧ Passes ctx (jparseExpectBool ctx).2.1 (ws ++ letters) left := by
  rcases jparseExpectTok_word word.begun inside.begun with ⟨res, token⟩
  rcases token ended with ⟨passes, value⟩
  have done := res.mpr ended
  rw [jparseExpectBool]
  rcases read : jparseExpectTok ctx.begun with ⟨res', next, v⟩
  rw [read] at done passes value
  change res' = .ok at done
  change v = _ at value
  subst done value
  rcases literal with rfl | rfl
  · exact ⟨rfl, passes.of_begun⟩
  · exact ⟨rfl, passes.of_begun⟩

theorem jparseExpectBool_other (word : Word ctx.unread ws letters left)
    (other : left ≠ [] → letters ≠ [116, 114, 117, 101] ∧ letters ≠ [102, 97, 108, 115, 101]) (inside : ctx.Inside) :
    (jparseExpectBool ctx).1 ≠ .ok ∧ Passes ctx (jparseExpectBool ctx).2.1 [] ctx.unread := by
  rcases jparseExpectTok_word word.begun inside.begun with ⟨res, token⟩
  have later := (jparseExpectTok_onward inside.begun).of_begun.later
  rw [jparseExpectBool]
  rcases read : jparseExpectTok ctx.begun with ⟨res', next, v⟩
  rw [read] at res token later
  cases res' with
  | ok =>
      have ended := res.mp rfl
      have value : v = some ⟨letters⟩ := (token ended).2
      have first : v ≠ some ⟨[116, 114, 117, 101]⟩ := by
        rw [value]
        exact fun same => (other ended).1 (Strz.mk.inj (Option.some.inj same))
      have second : v ≠ some ⟨[102, 97, 108, 115, 101]⟩ := by
        rw [value]
        exact fun same => (other ended).2 (Strz.mk.inj (Option.some.inj same))
      dsimp only
      rw [if_neg first, if_neg second]
      exact ⟨by simp, .back later inside⟩
  | _ => exact ⟨by simp, .back later inside⟩

theorem jparseExpectFloat_run (blank : Blank ctx.unread ws (chars ++ left))
    (run : Run floatStep .floatIn (chars ++ left) chars st left) (inside : ctx.Inside) :
    ((jparseExpectFloat ctx).1 = .ok ↔ left ≠ []) ∧
      (left ≠ [] → Passes ctx (jparseExpectFloat ctx).2.1 (ws ++ chars) left) := by
  rcases reachNonblank_blank blank.begun inside.begun with ⟨res, passes⟩
  rw [jparseExpectFloat]
  rcases reached : reachNonblank ctx.begun with ⟨res', next⟩
  rw [reached] at res passes
  change res' = _ at res
  subst res
  by_cases none : chars ++ left = []
  · rw [if_pos none]
    rcases List.append_eq_nil_iff.mp none with ⟨-, rfl⟩
    exact ⟨⟨by simp, fun wrong => absurd rfl wrong⟩, fun wrong => absurd rfl wrong⟩
  · rw [if_neg none]
    have run' : Run floatStep .floatIn next.unread chars st left := ⟨passes.unread, run.run, run.stops⟩
    rcases scanAll_run run' passes.inside with ⟨head, -, passes'⟩
    dsimp only
    rw [head]
    cases left with
    | nil => exact ⟨⟨by simp, fun wrong => absurd rfl wrong⟩, fun wrong => absurd rfl wrong⟩
    | cons c more => exact ⟨⟨fun _ => by simp, fun _ => rfl⟩, fun _ => (passes.trans passes').of_begun⟩

/-! Strings. -/

theorem strRun_of_closed (closed : Closed body) (flag : Bool) :
    body.foldlM strStep (.str, flag) = some (.str, flag || decide (92 ∈ body)) := by
  induction closed generalizing flag with
  | nil => simp
  | @char c rest quote slash _ ih =>
      have step : strStep (.str, flag) c = some (.str, flag) := by simp [strStep, quote, slash]
      have same : decide (92 ∈ c :: rest) = decide (92 ∈ rest) := by
        simp [Ne.symm slash]
      rw [List.foldlM_cons, step, same]
      exact ih flag
  | escape c _ ih =>
      rw [List.foldlM_cons, strStep, if_pos rfl]
      change (do
        let st ← strStep (.esc, true) c
        List.foldlM strStep st _) = _
      rw [strStep]
      refine (ih true).trans ?_
      simp

theorem closed_of_strRun {st : StrState} (run : body.foldlM strStep (st, flag) = some (.str, flag')) :
    Closed (if st = .esc then 92 :: body else body) := by
  induction body generalizing st flag with
  | nil =>
      have same : st = .str := congrArg Prod.fst (Option.some.inj run)
      rw [same]
      exact .nil
  | cons c body ih =>
      rw [List.foldlM_cons] at run
      cases st with
      | esc => exact .escape c (ih run)
      | str =>
          by_cases slash : c = 92
          · subst slash
            exact ih run
          · by_cases quote : c = 34
            · subst quote
              cases run
            · have step : strStep (.str, flag) c = some (.str, flag) := by simp [strStep, quote, slash]
              rw [step] at run
              exact .char quote slash (ih run)

theorem unescape_plain (plain : 92 ∉ body) : bytesJsonUnescape ⟨body⟩ = ⟨body⟩ := by
  rw [bytesJsonUnescape, Strz.data, Bytes.unescapeLoop_clean plain]
  have ends : Bytes.unescapeLoop [0] = [0] := rfl
  rw [ends, List.dropLast_concat]

/-- Where the string is ended the result is the one without its escapes. -/
theorem jparseExpectStr_closed (blank : Blank ctx.unread ws (34 :: (body ++ 34 :: more))) (closed : Closed body)
    (inside : ctx.Inside) :
    (jparseExpectStr ctx).1 = .ok ∧ Passes ctx (jparseExpectStr ctx).2.1 (ws ++ 34 :: (body ++ [34])) more ∧
      (jparseExpectStr ctx).2.2 = some (bytesJsonUnescape ⟨body⟩) := by
  have later := (jparseExpectStr_reads ctx inside).later
  rcases reachBody_found blank.begun inside.begun with ⟨res, passes⟩
  rw [jparseExpectStr, reachDquote] at later ⊢
  rcases reached : reachBody 34 ctx.begun with ⟨res', next⟩
  rw [reached] at res passes later
  change res' = .ok at res
  subst res
  have run : Run strStep (.str, false) next.unread body (.str, false || decide (92 ∈ body)) (34 :: more) := by
    refine ⟨passes.unread, strRun_of_closed closed false, ?_⟩
    intro ch head
    cases head
    rfl
  rcases scanAll_run run passes.inside with ⟨head, state, passes'⟩
  dsimp only at later ⊢
  rcases scanned : scanAll strStep (.str, false) next with ⟨ch, ⟨st, flag⟩, last⟩
  rw [scanned] at head state passes' later
  change ch = some 34 at head
  change (st, flag) = _ at state
  cases state
  subst head
  refine ⟨rfl, ⟨later, ?_, ?_⟩, ?_⟩
  · rw [blank.split]
    simp
  · change last.pos + 1 = _
    have first : next.pos = ctx.pos + (ws ++ [34]).length := passes.pos
    rw [passes'.pos, first]
    simp only [List.length_append, List.length_cons, List.length_nil]
    omega
  · have value : last.since next.pos = body := passes'.since
    dsimp only
    rw [value, Bool.false_or]
    by_cases slash : 92 ∈ body
    · rw [if_pos (decide_eq_true slash)]
    · rw [unescape_plain slash, ite_self]

theorem jparseExpectStr_other (blank : Blank ctx.unread ws (c :: more)) (other : c ≠ 34) (inside : ctx.Inside) :
    (jparseExpectStr ctx).1 = .expectStr 1 ∧ Passes ctx (jparseExpectStr ctx).2.1 [] ctx.unread ∧
      (jparseExpectStr ctx).2.2 = none := by
  rcases reachBody_other blank.begun other (by simp [rfc7159]) inside.begun with ⟨res, passes⟩
  rw [jparseExpectStr, reachDquote]
  rcases reached : reachBody 34 ctx.begun with ⟨res', next⟩
  rw [reached] at res passes
  change res' = _ at res
  subst res
  exact ⟨rfl, .back passes.of_begun.later inside, rfl⟩

theorem jparseExpectStr_ok (done : (jparseExpectStr ctx).1 = .ok) (inside : ctx.Inside) :
    ∃ ws body more, rfc7159.Spaces ws ∧ Closed body ∧
      Passes ctx (jparseExpectStr ctx).2.1 (ws ++ 34 :: (body ++ [34])) more := by
  have reached : (reachBody 34 ctx.begun).1 = .ok := by
    rw [jparseExpectStr, reachDquote] at done
    rcases reached : reachBody 34 ctx.begun with ⟨res', next⟩
    rw [reached] at done
    cases res' with
    | ok => rfl
    | _ => cases done
  have quote : ¬ rfc7159.space 34 := by simp [rfc7159]
  rcases reachBody_ok reached quote inside.begun with ⟨ws, more, spaces, passes⟩
  rcases exists_run strStep (.str, false) more with ⟨body, ⟨st, flag⟩, left, run⟩
  have run' : Run strStep (.str, false) (reachBody 34 ctx.begun).2.unread body (st, flag) left :=
    ⟨passes.unread.trans run.split, run.run, run.stops⟩
  have head := (scanAll_run run' passes.inside).1
  have ended : left ≠ [] := by
    rintro rfl
    rw [jparseExpectStr, reachDquote] at done
    rcases same : reachBody 34 ctx.begun with ⟨res', next⟩
    rw [same] at done reached head
    change res' = .ok at reached
    subst reached
    change (scanAll strStep (.str, false) next).1 = none at head
    dsimp only at done
    rw [head] at done
    cases done
  cases left with
  | nil => exact absurd rfl ended
  | cons c left =>
      have stop := run.stops c rfl
      cases st with
      | esc => cases stop
      | str =>
          have here : c = 34 := by
            rw [strStep] at stop
            split_ifs at stop with slash quote
            exact quote
          subst here
          have split : ctx.unread = ws ++ 34 :: (body ++ 34 :: left) := by
            have whole : ctx.unread = (ws ++ [34]) ++ more := passes.split
            rw [whole, run.split]
            simp
          have closed := closed_of_strRun run.run
          exact ⟨ws, body, left, spaces, closed, (jparseExpectStr_closed (.of_cons split spaces quote) closed inside).2.1⟩

end MnCommon.Jparse
