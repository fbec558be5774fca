import MnCommon.Jparse.Lexemes

/-! Which of the alternatives of the pull parser is taken. -/

namespace MnCommon.Jparse

open Grammars (IsLetter Literal rfc7159)

variable {S : Type} {ctx ctx' mid next : JparseCtx} {rest left more ws ws' letters taken seg : List UInt8}
  {c delim start stop : UInt8} {ignore : Expect JparseValue} {jval : JparseValue} {depth : Nat}

theorem Word.at_letters (word : Word rest ws letters left) : Word (letters ++ left) [] letters left :=
  ⟨⟨rfl, nofun, word.blank.stops⟩, word.letters, word.stops⟩

theorem literal_or (letters : List UInt8) :
    Literal letters ↔ letters = [110, 117, 108, 108] ∨
      letters = [116, 114, 117, 101] ∨ letters = [102, 97, 108, 115, 101] := by
  rw [Literal]
  grind

/-- The first character that is no blank is that of the word. -/
theorem reaches_word (word : Word ctx.unread ws letters left) (more : letters ++ left ≠ []) (inside : ctx.Inside) :
    ∃ first, reachNonblank ctx.begun = (.ok, first) ∧ Passes ctx.begun first ws (letters ++ left) ∧
      Word first.unread [] letters left := by
  rcases reachNonblank_blank word.begun.blank inside.begun with ⟨res, passes⟩
  rw [if_neg more] at res
  rcases reached : reachNonblank ctx.begun with ⟨res', first⟩
  rw [reached] at res passes
  change res' = .ok at res
  subst res
  refine ⟨first, rfl, passes, ?_⟩
  rw [passes.unread]
  exact word.at_letters

theorem null_refused (here : Word ctx.unread [] letters left) (other : left ≠ [] → letters ≠ [110, 117, 108, 108])
    (inside : ctx.Inside) :
    ∃ last, expectMaybeNull ctx = (.notNull, last) ∧ Passes ctx last [] ctx.unread ∧ last.pos = ctx.pos ∧
      Word last.unread [] letters left := by
  rcases expectMaybeNull_other here other inside with ⟨res, passes⟩
  rcases read : expectMaybeNull ctx with ⟨res', last⟩
  rw [read] at res passes
  change res' = .notNull at res
  subst res
  refine ⟨last, rfl, passes, passes.pos, ?_⟩
  rw [passes.unread]
  exact here

/-- The literals are tried first. -/
theorem ignoreWithin_literal (word : Word ctx.unread ws letters left) (literal : Literal letters) (ended : left ≠ [])
    (inside : ctx.Inside) :
    (ignoreWithin (depth + 1) ctx jval).1 = .ok ∧
      Passes ctx (ignoreWithin (depth + 1) ctx jval).2.1 (ws ++ letters) left ∧
      (ignoreWithin (depth + 1) ctx jval).2.2.ty = if letters = [110, 117, 108, 108] then .null else .boolean := by
  have more : letters ++ left ≠ [] := fun none => ended (List.append_eq_nil_iff.mp none).2
  rcases reaches_word word more inside with ⟨first, reached, passes, here⟩
  rw [ignoreWithin, reached]
  dsimp only
  by_cases null : letters = [110, 117, 108, 108]
  · subst null
    rcases expectMaybeNull_found here ended passes.inside with ⟨res, passes'⟩
    rcases read : expectMaybeNull first with ⟨res', last⟩
    rw [read] at res passes'
    change res' = .ok at res
    subst res
    exact ⟨rfl, (passes.trans passes').of_begun, rfl⟩
  · rcases null_refused here (fun _ => null) passes.inside with ⟨last, read, passes', -, here'⟩
    rw [read]
    have bool : letters = [116, 114, 117, 101] ∨ letters = [102, 97, 108, 115, 101] :=
      ((literal_or letters).mp literal).resolve_left null
    rcases jparseExpectBool_found here' ended bool passes'.inside with ⟨done, passes''⟩
    dsimp only
    rcases read' : jparseExpectBool last with ⟨res', last', b⟩
    rw [read'] at done passes''
    change res' = .ok at done
    subst done
    rw [if_neg null]
    exact ⟨rfl, (passes.trans (passes'.trans passes'')).of_begun, rfl⟩

/-- What is no literal is read from the same place again. -/
theorem ignoreWithin_other (word : Word ctx.unread ws letters left) (other : left ≠ [] → ¬ Literal letters)
    (more : letters ++ left ≠ []) (inside : ctx.Inside) :
    ∃ next, Passes ctx next ws (letters ++ left) ∧
      ignoreWithin (depth + 1) ctx jval = ignoreEnd next.pos (ignoreOther (ignoreWithin depth) next jval) := by
  rcases reaches_word word more inside with ⟨first, reached, passes, here⟩
  rw [ignoreWithin, reached]
  have null : left ≠ [] → letters ≠ [110, 117, 108, 108] :=
    fun ended same => other ended ((literal_or letters).mpr (.inl same))
  rcases null_refused here null passes.inside with ⟨last, read, passes', stays, here'⟩
  dsimp only
  rw [read]
  have bool : left ≠ [] → letters ≠ [116, 114, 117, 101] ∧ letters ≠ [102, 97, 108, 115, 101] :=
    fun ended => ⟨fun same => other ended ((literal_or letters).mpr (.inr (.inl same))),
      fun same => other ended ((literal_or letters).mpr (.inr (.inr same)))⟩
  rcases jparseExpectBool_other here' bool passes'.inside with ⟨failed, passes''⟩
  dsimp only
  rcases read' : jparseExpectBool last with ⟨res', last', b⟩
  rw [read'] at failed passes''
  have onward := passes.trans (passes'.trans passes'')
  have place : last'.pos = first.pos := by
    rw [passes''.pos, stays]
    rfl
  refine ⟨last', ?_, ?_⟩
  · have onward : Passes ctx.begun last' (ws ++ []) last.unread := onward
    rw [here'.blank.split, List.append_nil] at onward
    exact onward.of_begun
  · rw [place]
    cases res' with
    | ok => exact absurd rfl failed
    | _ => rfl

theorem whether_first (yes no : Expect JparseValue) (jval : JparseValue) (here : ctx.unread = c :: more)
    (text : ¬ rfc7159.space c) (mark : ¬ rfc7159.space delim) (inside : ctx.Inside) :
    Passes ctx (probeBody delim ctx).2 [] (c :: more) ∧
      whether (probeBody delim) yes no ctx jval =
        (if c = delim then yes else no) (probeBody delim ctx).2 jval := by
  rcases probeBody_first here text mark inside with ⟨found, passes⟩
  rw [here] at passes
  refine ⟨passes, ?_⟩
  rw [whether]
  rcases probed : probeBody delim ctx with ⟨res, next⟩
  rw [probed] at found
  cases res with
  | ok => rw [if_pos (found.mp rfl)]
  | _ =>
      have other : c ≠ delim := by
        intro same
        cases found.mpr same
      rw [if_neg other]

/-- The first character tells which alternative it is. -/
theorem ignoreOther_first (ignore : Expect JparseValue) (jval : JparseValue) (here : ctx.unread = c :: more)
    (text : ¬ rfc7159.space c) (inside : ctx.Inside) :
    ∃ next, Passes ctx next [] (c :: more) ∧
      ignoreOther ignore ctx jval =
        (if c = 34 then ignoreStr else if c = 123 then ignoreObject ignore
          else if c = 91 then ignoreArray ignore else ignoreFloat) next jval := by
  have quote : ¬ rfc7159.space 34 := by simp [rfc7159]
  have brace : ¬ rfc7159.space 123 := by simp [rfc7159]
  have bracket : ¬ rfc7159.space 91 := by simp [rfc7159]
  rcases whether_first ignoreStr (whether probeOstart (ignoreObject ignore)
    (whether probeAstart (ignoreArray ignore) ignoreFloat)) jval here text quote inside with ⟨passes, first⟩
  rcases whether_first (ignoreObject ignore) (whether probeAstart (ignoreArray ignore) ignoreFloat) jval passes.unread
    text brace passes.inside with ⟨passes', second⟩
  rcases whether_first (ignoreArray ignore) ignoreFloat jval passes'.unread text bracket passes'.inside
    with ⟨passes'', third⟩
  have first : ignoreOther ignore ctx jval = _ := first
  by_cases string : c = 34
  · refine ⟨_, passes, first.trans ?_⟩
    rw [if_pos string, if_pos string]
  · rw [if_neg string] at first ⊢
    by_cases object : c = 123
    · refine ⟨_, passes.trans passes', first.trans (second.trans ?_)⟩
      rw [if_pos object, if_pos object]
    · rw [if_neg object] at second ⊢
      exact ⟨_, passes.trans (passes'.trans passes''), first.trans (second.trans third)⟩

/-- The alternatives in one. -/
theorem ignoreWithin_first (word : Word ctx.unread ws letters left) (other : left ≠ [] → ¬ Literal letters)
    (here : letters ++ left = c :: more) (inside : ctx.Inside) :
    ∃ next, Passes ctx next ws (c :: more) ∧
      ignoreWithin (depth + 1) ctx jval = ignoreEnd next.pos
        ((if c = 34 then ignoreStr else if c = 123 then ignoreObject (ignoreWithin depth)
          else if c = 91 then ignoreArray (ignoreWithin depth) else ignoreFloat) next jval) := by
  have some : letters ++ left ≠ [] := by simp [here]
  have text : ¬ rfc7159.space c := word.blank.stops c (by rw [here]; rfl)
  rcases ignoreWithin_other word other some inside with ⟨start, passes, same⟩
  rw [here] at passes
  rcases ignoreOther_first (ignoreWithin depth) jval passes.unread text passes.inside with ⟨next, passes', same'⟩
  have place : next.pos = start.pos := passes'.pos
  refine ⟨next, ?_, ?_⟩
  · have onward := passes.trans passes'
    rw [List.append_nil] at onward
    exact onward
  · rw [same, same', place]

/-- A mark begins no literal. -/
theorem ignoreWithin_mark (split : ctx.unread = ws ++ c :: more) (spaces : rfc7159.Spaces ws) (text : ¬ rfc7159.space c)
    (mark : ¬ IsLetter c) (inside : ctx.Inside) (jval : JparseValue) (depth : Nat) :
    ∃ next, Passes ctx next ws (c :: more) ∧
      ignoreWithin (depth + 1) ctx jval = ignoreEnd next.pos
        ((if c = 34 then ignoreStr else if c = 123 then ignoreObject (ignoreWithin depth)
          else if c = 91 then ignoreArray (ignoreWithin depth) else ignoreFloat) next jval) :=
  ignoreWithin_first (.none split spaces text mark) (fun _ => by simp [Literal]) rfl inside

theorem ignoreEnd_ok {r : JparseRes × JparseCtx × JparseValue} (done : r.1 = .ok) (pos : Nat) : ignoreEnd pos r = r := by
  rcases r with ⟨res, ctx, jval⟩
  change res = .ok at done
  subst done
  rfl

theorem ignoreEnd_inv {r : JparseRes × JparseCtx × JparseValue} {pos : Nat} (done : (ignoreEnd pos r).1 = .ok) :
    r.1 = .ok ∧ ignoreEnd pos r = r := by
  rcases r with ⟨res, ctx, jval⟩
  cases res with
  | ok => exact ⟨rfl, rfl⟩
  | _ => cases done

end MnCommon.Jparse
