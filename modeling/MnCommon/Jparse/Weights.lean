import Mathlib.Algebra.GroupWithZero.Nat
import MnCommon.Grammars.Units
import MnCommon.Jparse.Pairs

/-! What is read of a text is not more than what stands there. -/

namespace MnCommon.Jparse

open Bytes (Strz bytesJsonUnescape unescapeLoop)
open Grammars

variable {ctx ctx₁ ctx' next : JparseCtx} {rest taken left body : List UInt8} {delim : UInt8} {n m : Nat}
  {res : JparseRes} {s : StrPair} {got : List StrPair}

/-- An operation goes past so many units of the text. -/
structure Spends (ctx ctx' : JparseCtx) (n : Nat) : Prop where
  inside : ctx'.Inside
  less : units ctx'.unread + n ≤ units ctx.unread

theorem Spends.trans (first : Spends ctx ctx₁ n) (second : Spends ctx₁ ctx' m) : Spends ctx ctx' (n + m) := by
  have less := first.less
  have less' := second.less
  exact ⟨second.inside, by omega⟩

theorem Spends.of_begun (spends : Spends ctx.begun ctx' n) : Spends ctx ctx' n := ⟨spends.inside, spends.less⟩

theorem drop_suffix {l : List UInt8} (less : l.length - m ≤ l.length - n) : units (l.drop m) ≤ units (l.drop n) := by
  by_cases order : n ≤ m
  · have whole : (l.drop n).take (m - n) ++ l.drop m = l.drop n := by
      rw [← Nat.add_sub_cancel' order, ← List.drop_drop, Nat.add_sub_cancel_left, List.take_append_drop]
    rw [← whole]
    exact units_append_ge _ _
  · rw [List.drop_eq_nil_of_le (by omega : l.length ≤ m)]
    exact Nat.zero_le _

theorem Onward.spends (onward : Onward ctx res ctx') : Spends ctx ctx' 0 := by
  refine ⟨onward.later.inside, ?_⟩
  have forth := onward.forth
  rw [JparseCtx.ahead, JparseCtx.ahead, onward.later.text] at forth
  rw [JparseCtx.unread, JparseCtx.unread, onward.later.text]
  exact drop_suffix forth

theorem reachBody_spends (reached : (reachBody delim ctx).1 = .ok) (mark : ¬ rfc7159.space delim) (slash : delim ≠ 92)
    (inside : ctx.Inside) : Spends ctx (reachBody delim ctx).2 1 := by
  rcases reachBody_ok reached mark inside with ⟨ws, more, -, passes⟩
  refine ⟨passes.inside, ?_⟩
  have suffix := units_append_ge ws (delim :: more)
  rw [units_cons slash] at suffix
  rw [passes.unread, passes.split, List.append_assoc]
  exact suffix

theorem unescapeLoop_closed (closed : Closed body) (rest : List UInt8) :
    ∃ out, unescapeLoop (body ++ rest) = out ++ unescapeLoop rest ∧ out.length = units body := by
  induction closed with
  | nil => exact ⟨[], rfl, rfl⟩
  | @char c body _ slash _ ih =>
      rcases ih with ⟨out, same, length⟩
      refine ⟨c :: out, ?_, ?_⟩
      · rw [List.cons_append, Bytes.unescapeLoop_plain slash, same]
        rfl
      · rw [units_cons slash, List.length_cons, length]
  | @escape c body _ ih =>
      rcases ih with ⟨out, same, length⟩
      refine ⟨Bytes.unescaped c :: out, ?_, ?_⟩
      · rw [List.cons_append, List.cons_append, unescapeLoop, same]
        rfl
      · rw [units_escape, List.length_cons, length]

theorem length_unescape (closed : Closed body) : (bytesJsonUnescape ⟨body⟩).chars.length = units body := by
  rcases unescapeLoop_closed closed [0] with ⟨out, same, length⟩
  have ends : unescapeLoop [0] = [0] := rfl
  rw [bytesJsonUnescape, Strz.data, same, ends, List.dropLast_concat, length]

/-- A string is not longer than the text between its quotation marks. -/
theorem jparseExpectStr_spends (done : (jparseExpectStr ctx).1 = .ok) (inside : ctx.Inside) :
    ∃ v : Strz, (jparseExpectStr ctx).2.2 = some v ∧ Spends ctx (jparseExpectStr ctx).2.1 (v.chars.length + 2) := by
  rcases jparseExpectStr_ok done inside with ⟨ws, body, more, spaces, closed, passes⟩
  have split : ctx.unread = ws ++ 34 :: (body ++ 34 :: more) := by
    rw [passes.split]
    simp
  have value := (jparseExpectStr_closed (.of_cons split spaces not_space_quote) closed inside).2.2
  refine ⟨_, value, passes.inside, ?_⟩
  have suffix := units_append_ge ws (34 :: (body ++ 34 :: more))
  rw [units_cons (by decide), closed.units_append, units_cons (by decide), ← split] at suffix
  rw [passes.unread, length_unescape closed]
  omega

theorem nextComma_spends (inside : ctx.Inside) :
    Spends ctx (nextComma ctx).2 (if (nextComma ctx).1 = .ok then 1 else 0) := by
  split_ifs with done
  · have reached : (reachBody 44 ctx).1 = .ok := by
      rw [nextComma, reachComma] at done
      rcases run : reachBody 44 ctx with ⟨res, next⟩
      rw [run] at done
      cases res with
      | ok => rfl
      | _ => cases done
    have same : (nextComma ctx).2 = (reachBody 44 ctx).2 := by
      rw [nextComma, reachComma]
      split <;> simp [*]
    rw [same]
    exact reachBody_spends reached divides_comma.space (by decide) inside
  · exact (nextComma_onward inside).1.spends

theorem jparseExpectStr_res (ctx : JparseCtx) : (jparseExpectStr ctx).1 ≠ .eos := by
  rw [jparseExpectStr]
  split
  · dsimp only
    split_ifs <;> simp
  · simp

/-- The value of a pair, and the comma behind it. -/
theorem expectValue_spends {string : Expect StrPair} {t : StrPair} (none : s.val = none)
    (same : ∀ ctx pair, string ctx pair = ((jparseExpectStr ctx).1, (jparseExpectStr ctx).2.1,
      { pair with val := (jparseExpectStr ctx).2.2.or pair.val }))
    (run : expectValue string ctx s = (res, ctx', t)) (done : res = .ok ∨ res = .eos) (inside : ctx.Inside) :
    t.key = s.key ∧ ∃ n, Spends ctx ctx' n ∧
      ∀ v, t.val = some v → v.chars.length + 2 + (if res = .ok then 1 else 0) ≤ n := by
  have first := (expectMaybeNull_onward inside).spends
  by_cases null : (expectMaybeNull ctx).1 = .ok
  · rw [expectValue_null null] at run
    cases run
    refine ⟨rfl, _, first.trans (nextComma_spends first.inside), ?_⟩
    intro v some
    exact absurd (none.symm.trans some) (by simp)
  · rw [expectValue_other null, same] at run
    generalize (expectMaybeNull ctx).2 = next at run first
    have never := jparseExpectStr_res next
    by_cases fine : (jparseExpectStr next).1 = .ok
    · rcases jparseExpectStr_spends fine first.inside with ⟨v, value, second⟩
      rw [commaBehind, if_pos fine, value] at run
      cases run
      refine ⟨rfl, _, first.trans (second.trans (nextComma_spends second.inside)), ?_⟩
      intro v' some
      cases Option.some.inj some
      exact Nat.le_of_eq (Nat.zero_add _).symm
    · rw [commaBehind, if_neg fine] at run
      rcases Prod.mk.inj run with ⟨rfl, -⟩
      exact absurd done (not_or.mpr ⟨fine, never⟩)

/-- What a pair takes in a text at least, with the comma behind it. -/
def weight (pair : StrPair) : Nat :=
  match pair.key, pair.val with
  | some key, some val => key.chars.length + val.chars.length + 6
  | _, _ => 0

theorem jparseExpectAnykvpStr_spends {t : StrPair}
    (run : jparseExpectAnykvpStr ctx { key := none, val := none } = (res, ctx', t)) (done : res = .ok ∨ res = .eos)
    (inside : ctx.Inside) : ∃ n, Spends ctx ctx' n ∧ weight t ≤ n + (if res = .ok then 0 else 1) := by
  have spends := @jparseExpectStr_spends ctx.begun
  rw [jparseExpectAnykvpStr, expectAnykvp] at run
  rcases parsed : jparseExpectStr ctx.begun with ⟨res', next, key⟩
  rw [parsed] at run spends
  cases res' with
  | ok =>
      rcases spends rfl inside.begun with ⟨k, found, first⟩
      have reaches := @reachBody_spends next 58
      change key = some k at found
      subst found
      dsimp only at run
      rw [reachColon] at run
      rcases reached : reachBody 58 next with ⟨res', next'⟩
      rw [reached] at run reaches
      cases res' with
      | ok =>
          have second := reaches rfl (by simp [rfc7159]) (by decide) first.inside
          rcases expectValue_spends rfl (fun _ _ => rfl) run done second.inside with ⟨same, n, third, value⟩
          refine ⟨_, (first.trans (second.trans third)).of_begun, ?_⟩
          have key : t.key = some k := same
          rw [weight, key]
          cases val : t.val with
          | none => exact Nat.zero_le _
          | some v =>
              have room := value v val
              dsimp only
              split_ifs at room ⊢ <;> omega
      | _ =>
          cases run
          rcases done with done | done <;> cases done
  | _ =>
      cases run
      rcases done with done | done <;> cases done

/-- Whatever the loop comes to, the pairs have been in the text. -/
theorem iterate_weights (fuel : Nat) (inside : ctx.Inside) :
    ∃ pairs, (iterate collect fuel ctx got).2.2 = got ++ pairs ∧ (pairs.map weight).sum ≤ units ctx.unread + 1 := by
  induction fuel generalizing ctx got with
  | zero => exact ⟨[], (List.append_nil _).symm, Nat.zero_le _⟩
  | succ fuel ih =>
      have spends := @jparseExpectAnykvpStr_spends ctx
      rcases run : jparseExpectAnykvpStr ctx { key := none, val := none } with ⟨res, next, pair⟩
      have called : collect ctx got = (res, next, if res = .ok ∨ res = .eos then got ++ [pair] else got) := by
        rw [collect, run]
      by_cases done : res = .ok
      · subst done
        rcases spends run (.inl rfl) inside with ⟨n, first, enough⟩
        rcases @ih next (got ++ [pair]) first.inside with ⟨pairs, same, sum⟩
        refine ⟨pair :: pairs, ?_, ?_⟩
        · rw [if_pos (.inl rfl)] at called
          rw [iterate, called]
          dsimp only
          rw [same, List.append_assoc]
          rfl
        · have less := first.less
          rw [if_pos rfl] at enough
          rw [List.map_cons, List.sum_cons]
          omega
      · rw [iterate_stop (by rw [called]; exact done), called]
        by_cases ended : res = .eos
        · rcases spends run (.inr ended) inside with ⟨n, first, enough⟩
          have less := first.less
          rw [if_neg done] at enough
          refine ⟨[pair], if_pos (.inr ended), ?_⟩
          change weight pair + 0 ≤ _
          omega
        · refine ⟨[], ?_, Nat.zero_le _⟩
          rw [List.append_nil]
          exact if_neg fun either => either.elim done ended

/-- The loop is all that writes to the list. -/
theorem expectIter_state {S : Type} {cb : Expect S} {reachStart reachStop : JparseCtx → JparseRes × JparseCtx}
    {code : Nat → JparseRes} {t : S} (reached : reachStart ctx.begun = (.ok, next)) :
    (expectIter reachStart reachStop code cb ctx t).2.2 = (iterate cb (next.ahead + 2) next t).2.2 := by
  rw [expectIter_eq, reached, if_pos rfl, loopEnd]
  split_ifs <;> rfl

/-- The pairs that are read from an object are not longer than its text. -/
theorem jparseExpectObjectIter_weights (done : (jparseExpectObjectIter collect ctx []).1 = .ok) (inside : ctx.Inside) :
    ((jparseExpectObjectIter collect ctx []).2.2.map weight).sum ≤ units ctx.unread := by
  have reaches := @reachBody_spends ctx.begun 123
  rcases reached : reachBody 123 ctx.begun with ⟨res, next⟩
  rw [reached] at reaches
  have opened : res = .ok := by
    by_contra failed
    rw [jparseExpectObjectIter, expectIter_eq, reachOstart, reached, if_neg failed] at done
    cases done
  subst opened
  have first := (reaches rfl (by simp [rfc7159]) (by decide) inside.begun).of_begun
  rcases @iterate_weights next [] (next.ahead + 2) first.inside with ⟨pairs, same, sum⟩
  have less : units next.unread + 1 ≤ units ctx.unread := first.less
  have state := @expectIter_state ctx next _ collect reachOstart reachOstop .expectObjectIter [] reached
  rw [jparseExpectObjectIter, state, same, List.nil_append]
  omega

end MnCommon.Jparse
