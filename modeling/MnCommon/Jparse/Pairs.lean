import MnCommon.Jparse.Accept

/-! Objects of strings, read with a callback that keeps the pairs. -/

namespace MnCommon.Jparse

open Bytes (Strz bytesJsonEscape bytesJsonUnescape unescape_escape escape_closed)
open Grammars

variable {ctx ctx' mid next : JparseCtx} {key value : Strz} {c : UInt8} {more left : List UInt8} {got : List StrPair}
  {fuel : Nat} {s : StrPair}

/-- The callback adds the key and the value to a list if it has found a pair. -/
def collect : Expect (List StrPair) := fun ctx got =>
  let (res, ctx, pair) := jparseExpectAnykvpStr ctx { key := none, val := none }
  (res, ctx, if res = .ok ∨ res = .eos then got ++ [pair] else got)

/-- A member whose value is written with its escapes. -/
def member (pair : Strz × Strz) : List UInt8 :=
  34 :: (pair.1.chars ++ 34 :: 58 :: 34 :: ((bytesJsonEscape pair.2).chars ++ [34]))

/-- What is kept of a pair. -/
def kept (pair : Strz × Strz) : StrPair := { key := some pair.1, val := some pair.2 }

def membersText (pairs : List (Strz × Strz)) : List UInt8 := List.intercalate [44] (pairs.map member)

/-- A key that is read as it is. -/
def Bare (key : Strz) : Prop := ∀ c ∈ key.chars, c ≠ 34 ∧ c ≠ 92

theorem Bare.closed (bare : Bare key) : Closed key.chars := by
  rcases key with ⟨chars⟩
  induction chars with
  | nil => exact .nil
  | cons c chars ih =>
      rcases List.forall_mem_cons.mp bare with ⟨⟨quote, slash⟩, others⟩
      exact .char quote slash (ih others)

theorem Bare.unescape (bare : Bare key) : bytesJsonUnescape ⟨key.chars⟩ = key :=
  unescape_plain fun inside => (bare 92 inside).2 rfl

theorem not_space_quote : ¬ rfc7159.space 34 := by simp [rfc7159]

/-- The value of a pair, up to where the comma is looked for. -/
theorem expectValue_escaped {string : Expect StrPair}
    (same : ∀ ctx pair, string ctx pair = ((jparseExpectStr ctx).1, (jparseExpectStr ctx).2.1,
      { pair with val := (jparseExpectStr ctx).2.2.or pair.val }))
    (split : ctx.unread = 34 :: ((bytesJsonEscape value).chars ++ 34 :: more)) (inside : ctx.Inside) :
    ∃ mid, Passes ctx mid (34 :: ((bytesJsonEscape value).chars ++ [34])) more ∧
      expectValue string ctx s = ((nextComma mid).1, (nextComma mid).2, { s with val := some value }) := by
  have word : Word ctx.unread [] [] (34 :: ((bytesJsonEscape value).chars ++ 34 :: more)) :=
    .none split nofun not_space_quote (by decide)
  rcases expectMaybeNull_other word (fun _ => by simp) inside with ⟨res, passes⟩
  have other : (expectMaybeNull ctx).1 ≠ .ok := by
    rw [res]
    simp
  have blank : Blank (expectMaybeNull ctx).2.unread [] (34 :: ((bytesJsonEscape value).chars ++ 34 :: more)) :=
    .of_cons (passes.unread.trans split) rfc7159.spaces_nil not_space_quote
  rcases jparseExpectStr_closed blank (escape_closed value) passes.inside with ⟨done, onward, found⟩
  have back : bytesJsonUnescape ⟨(bytesJsonEscape value).chars⟩ = value := unescape_escape value
  rw [back] at found
  refine ⟨(jparseExpectStr (expectMaybeNull ctx).2).2.1, passes.trans onward, ?_⟩
  rw [expectValue_other other, same, commaBehind, if_pos done, found]
  rfl

theorem jparseExpectAnykvpStr_member (bare : Bare key) (split : ctx.unread = member (key, value) ++ more)
    (inside : ctx.Inside) :
    ∃ mid, Passes ctx mid (member (key, value)) more ∧
      jparseExpectAnykvpStr ctx s = ((nextComma mid).1, (nextComma mid).2, kept (key, value)) := by
  have split' : ctx.unread =
      34 :: (key.chars ++ 34 :: 58 :: (34 :: ((bytesJsonEscape value).chars ++ 34 :: more))) := by
    rw [split, member]
    simp
  have blank : Blank ctx.unread [] (34 :: (key.chars ++ 34 :: 58 :: (34 :: ((bytesJsonEscape value).chars ++ 34 :: more)))) :=
    .of_cons split' rfc7159.spaces_nil not_space_quote
  rcases jparseExpectStr_closed blank.begun bare.closed inside.begun with ⟨res, passes, found⟩
  rw [bare.unescape] at found
  rw [jparseExpectAnykvpStr, expectAnykvp]
  rcases read : jparseExpectStr ctx.begun with ⟨res', next, val⟩
  rw [read] at res passes found
  change res' = .ok at res
  change val = some key at found
  subst res found
  have blank' : Blank next.unread [] (58 :: (34 :: ((bytesJsonEscape value).chars ++ 34 :: more))) :=
    .of_cons passes.unread rfc7159.spaces_nil (by simp [rfc7159])
  rcases reachBody_found blank' passes.inside with ⟨res, passes'⟩
  dsimp only
  rw [reachColon]
  rcases reached : reachBody 58 next with ⟨res', next'⟩
  rw [reached] at res passes'
  change res' = .ok at res
  subst res
  rcases @expectValue_escaped next' value more { s with key := some key } _ (fun _ _ => rfl) passes'.unread passes'.inside
    with ⟨mid, onward, run⟩
  have whole := (passes.trans (passes'.trans onward)).of_begun
  have shape : [] ++ 34 :: (key.chars ++ [34]) ++ ([] ++ [58] ++ 34 :: ((bytesJsonEscape value).chars ++ [34])) =
      member (key, value) := by simp [member]
  rw [shape] at whole
  exact ⟨mid, whole, run⟩

theorem collect_member (bare : Bare key) (split : ctx.unread = member (key, value) ++ more) (inside : ctx.Inside) :
    ∃ mid, Passes ctx mid (member (key, value)) more ∧
      collect ctx got = ((nextComma mid).1, (nextComma mid).2, got ++ [kept (key, value)]) := by
  rcases @jparseExpectAnykvpStr_member ctx key value more { key := none, val := none } bare split inside with
    ⟨mid, passes, run⟩
  refine ⟨mid, passes, ?_⟩
  rw [collect, run]
  dsimp only
  rw [if_pos (nextComma_res mid)]

theorem membersText_last (pair : Strz × Strz) : membersText [pair] = member pair := by
  simp [membersText, List.intercalate]

theorem membersText_cons (pair : Strz × Strz) {pairs : List (Strz × Strz)} (some : pairs ≠ []) :
    membersText (pair :: pairs) = member pair ++ 44 :: membersText pairs := by
  cases pairs with
  | nil => exact absurd rfl some
  | cons second pairs => simp [membersText, List.intercalate]

/-- The loop reads the members and stops in front of the brace. -/
theorem iterate_collect {pairs : List (Strz × Strz)} (some : pairs ≠ []) (bare : ∀ pair ∈ pairs, Bare pair.1)
    (split : ctx.unread = membersText pairs ++ 125 :: left) (inside : ctx.Inside) (enough : ctx.unread.length < fuel) :
    Closes 125 ctx (membersText pairs ++ [125]) left (iterate collect fuel ctx got) ∧
      (iterate collect fuel ctx got).2.2 = got ++ pairs.map kept := by
  induction pairs generalizing ctx got fuel with
  | nil => exact absurd rfl some
  | cons pair pairs ih =>
      rcases List.forall_mem_cons.mp bare with ⟨first, others⟩
      cases fuel with
      | zero => exact absurd enough (Nat.not_lt_zero _)
      | succ fuel =>
          by_cases last : pairs = []
          · subst last
            rw [membersText_last] at split ⊢
            rcases @collect_member ctx pair.1 pair.2 _ got first split inside with ⟨mid, passes, run⟩
            have bare : Passes ctx mid (member pair) ([] ++ 125 :: left) := passes
            have blanks : rfc7159.Spaces [] := rfc7159.spaces_nil
            rcases nextComma_last bare blanks divides_brace (by decide) with ⟨res, onward⟩
            refine ⟨iterate_last run res blanks onward rfl fuel, ?_⟩
            rw [iterate, run, res]
            rfl
          · rw [membersText_cons pair last] at split ⊢
            have here : ctx.unread = member pair ++ 44 :: (membersText pairs ++ 125 :: left) := by
              rw [split]
              simp
            rcases @collect_member ctx pair.1 pair.2 _ got first here inside with ⟨mid, passes, run⟩
            have bare : Passes ctx mid (member pair) ([] ++ 44 :: (membersText pairs ++ 125 :: left)) := passes
            rcases nextComma_comma bare rfc7159.spaces_nil with ⟨res, onward⟩
            have fewer : (nextComma mid).2.unread.length < fuel := by
              rw [here, List.length_append, List.length_cons] at enough
              rw [onward.unread]
              omega
            rcases @ih (nextComma mid).2 _ fuel last others onward.unread onward.inside fewer with ⟨closes, list⟩
            have whole := iterate_more run res onward closes
            have shape : member pair ++ ([] ++ [44]) ++ (membersText pairs ++ [125]) =
                member pair ++ 44 :: membersText pairs ++ [125] := by simp
            rw [shape] at whole
            refine ⟨whole, ?_⟩
            rw [iterate, run, res]
            refine list.trans ?_
            simp

/-- An object of strings is read back. -/
theorem jparseExpectObjectIter_collect {pairs : List (Strz × Strz)} (bare : ∀ pair ∈ pairs, Bare pair.1)
    (split : ctx.unread = 123 :: (membersText pairs ++ 125 :: left)) (inside : ctx.Inside) :
    (jparseExpectObjectIter collect ctx got).1 = .ok ∧
      (jparseExpectObjectIter collect ctx got).2.2 = got ++ pairs.map kept := by
  have brace : ¬ rfc7159.space 125 := divides_brace.space
  have blank : Blank ctx.unread [] (123 :: (membersText pairs ++ 125 :: left)) :=
    .of_cons split rfc7159.spaces_nil (by simp [rfc7159])
  by_cases none : pairs = []
  · subst none
    have fails (next : JparseCtx) (passes : Passes ctx next ([] ++ [123]) ([] ++ 125 :: left)) :
        ∃ res last, collect next got = (res, last, got) ∧ res ≠ .ok ∧ res ≠ .outOfFuel ∧
          Passes next last [] next.unread := by
      have here : Blank next.unread [] (125 :: left) := .of_cons passes.unread rfc7159.spaces_nil brace
      rcases jparseExpectStr_other here.begun (by decide) passes.inside.begun with ⟨res, still, value⟩
      refine ⟨.expectAnykvpStr 1, (jparseExpectStr next.begun).2.1, ?_, by simp, by simp, still.of_begun⟩
      rw [collect, jparseExpectAnykvpStr, expectAnykvp]
      rcases read : jparseExpectStr next.begun with ⟨res', last, val⟩
      rw [read] at res value
      change res' = _ at res
      change val = none at value
      subst res value
      rfl
    rcases @expectIter_empty _ ctx left [] [] 123 125 collect got .expectObjectIter blank inside rfc7159.spaces_nil brace
      fun next passes => by
        rcases fails next passes with ⟨res, last, run, ends⟩
        exact ⟨res, last, got, run, ends⟩ with ⟨done, -, next, passes, list⟩
    rcases fails next passes with ⟨res, last, run, -⟩
    rw [run] at list
    refine ⟨done, list.trans ?_⟩
    simp
  · have loops (next : JparseCtx) (passes : Passes ctx next ([] ++ [123]) (membersText pairs ++ 125 :: left)) :=
      @iterate_collect next left got (next.ahead + 2) pairs none bare passes.unread passes.inside (by
        rw [ahead_eq]
        omega)
    rcases @expectIter_closes _ ctx left _ [] _ 123 125 collect got .expectObjectIter blank inside brace
      fun next passes => (loops next passes).1 with ⟨done, -, next, passes, list⟩
    exact ⟨done, list.trans (loops next passes).2⟩

end MnCommon.Jparse
