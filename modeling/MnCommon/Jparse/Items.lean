import MnCommon.Jparse.Alternatives
import MnCommon.Jparse.Operations

/-! The items of an array, read one after the other. -/

namespace MnCommon.Jparse

open Grammars

variable {S : Type} {ctx mid next : JparseCtx} {left more ws ws' ws₁ ws₂ taken seg chars : List UInt8}
  {c start stop : UInt8} {value cb : Expect S} {s t : S} {res : JparseRes} {depth fuel : Nat} {v : Json} {G : S → S → Prop}

/-- The lexemes that the parser lets pass. -/
def loose : Lexicon where
  space := rfc7159.space
  allows
    | .string body => Closed body
    | .number chars => ∃ st, chars.foldlM floatStep .floatIn = some st
    | .token chars => Literal chars
    | .comma => False

/-- What is read as a number without characters. -/
structure Foreign (left : List UInt8) : Prop where
  first : ∀ ch ∈ left.head?, ¬ rfc7159.space ch ∧ ch ≠ 34 ∧ ch ≠ 123 ∧ ch ≠ 91
  literal : ∀ letters more, Literal letters → left = letters ++ more → more ≠ [] → ∀ ch ∈ more.head?, IsLetter ch

/-- What has to follow a value for its end to be seen. -/
def EndsAt : Json → List UInt8 → Prop
  | .token _, left => left ≠ [] ∧ ∀ ch ∈ left.head?, ¬ IsLetter ch
  | .number chars, left =>
      left ≠ [] ∧ (∀ st, chars.foldlM floatStep .floatIn = some st → ∀ ch ∈ left.head?, floatStep st ch = none) ∧
        (chars = [] → Foreign left)
  | _, _ => True

/-- A loop has stopped in front of the end of a container. -/
def Closes (stop : UInt8) (ctx : JparseCtx) (seg left : List UInt8) (r : JparseRes × JparseCtx × S) : Prop :=
  r.1 = .eos ∧ ∃ taken ws, rfc7159.Spaces ws ∧ seg = taken ++ (ws ++ [stop]) ∧
    Passes ctx r.2.1 taken (ws ++ stop :: left)

/-- What `expect_maybe_null` takes. -/
def isNull : Json → Bool
  | .token chars => chars = [110, 117, 108, 108]
  | _ => false

theorem isNull_iff : isNull v = true ↔ v = .token [110, 117, 108, 108] := by
  cases v <;> simp [isNull]

theorem floatStep_first {st : FloatState} (step : floatStep .floatIn c = some st) :
    ¬ rfc7159.space c ∧ ¬ IsLetter c ∧ c ≠ 34 ∧ c ≠ 123 ∧ c ≠ 91 := by
  have numeric : IsDigit c ∨ c = 45 ∨ c = 43 ∨ c = 46 := by
    rw [floatStep] at step
    split_ifs at step with digit dot
    · rcases digit with digit | rfl | rfl
      · exact .inl digit
      · exact .inr (.inl rfl)
      · exact .inr (.inr (.inl rfl))
    · exact .inr (.inr (.inr dot))
  rcases numeric with digit | rfl | rfl | rfl
  · simp only [IsDigit, IsLetter, rfc7159] at digit ⊢
    grind
  all_goals simp [IsLetter, rfc7159]

theorem floatRun_first {st : FloatState} (run : (c :: chars).foldlM floatStep .floatIn = some st) :
    ¬ rfc7159.space c ∧ ¬ IsLetter c ∧ c ≠ 34 ∧ c ≠ 123 ∧ c ≠ 91 := by
  rw [List.foldlM_cons] at run
  cases first : floatStep .floatIn c with
  | none =>
      rw [first] at run
      cases run
  | some st₁ => exact floatStep_first first

theorem nextComma_found (blank : Blank ctx.unread ws (44 :: more)) (inside : ctx.Inside) :
    (nextComma ctx).1 = .ok ∧ Passes ctx (nextComma ctx).2 (ws ++ [44]) more := by
  rcases reachBody_found blank inside with ⟨res, passes⟩
  rw [nextComma, reachComma]
  rcases reached : reachBody 44 ctx with ⟨res', next⟩
  rw [reached] at res passes
  change res' = .ok at res
  subst res
  exact ⟨rfl, passes⟩

theorem nextComma_other (blank : Blank ctx.unread ws (c :: more)) (other : c ≠ 44) (inside : ctx.Inside) :
    (nextComma ctx).1 = .eos ∧ Passes ctx (nextComma ctx).2 [] ctx.unread := by
  rcases reachBody_other blank other (by simp [rfc7159]) inside with ⟨res, passes⟩
  rw [nextComma, reachComma]
  rcases reached : reachBody 44 ctx with ⟨res', next⟩
  rw [reached] at res passes
  change res' = _ at res
  subst res
  exact ⟨rfl, passes⟩

/-- What no scanner of a token goes on with. -/
theorem floatStep_stops (word : ¬ IsWord c) (st : FloatState) : floatStep st c = none := by
  simp only [IsWord, IsLetter, not_or] at word
  have letters : c ≠ 101 ∧ c ≠ 69 := by grind
  have digit := word.1
  cases st <;> simp [floatStep, digit, word.2.2, letters]

/-- What stands between the values, or behind the last one. -/
structure Divides (c : UInt8) : Prop where
  space : ¬ rfc7159.space c
  word : ¬ IsWord c
  first : c ≠ 34 ∧ c ≠ 123 ∧ c ≠ 91

theorem divides_comma : Divides 44 := ⟨by simp [rfc7159], by decide, by decide⟩

theorem divides_bracket : Divides 93 := ⟨by simp [rfc7159], by decide, by decide⟩

theorem divides_brace : Divides 125 := ⟨by simp [rfc7159], by decide, by decide⟩

theorem Divides.letter (divides : Divides c) : ¬ IsLetter c := fun letter => divides.word (.inr (.inl letter))

theorem Divides.foreign (divides : Divides c) (more : List UInt8) : Foreign (c :: more) := by
  constructor
  · intro ch head
    cases head
    exact ⟨divides.space, divides.first⟩
  · intro letters tail literal same
    rcases literal.letters with ⟨d, ds, rfl, letter, -⟩
    rw [List.cons_append, List.cons.injEq] at same
    exact absurd (same.1 ▸ letter) divides.letter

theorem word_space (space : rfc7159.space c) : ¬ IsWord c := by
  simp only [rfc7159] at space
  rcases space with rfl | rfl | rfl | rfl <;> decide

theorem head_stops (spaces : rfc7159.Spaces ws) (divides : Divides c) :
    ∀ ch ∈ (ws ++ c :: more).head?, ¬ IsWord ch := by
  intro ch head
  cases ws with
  | nil =>
      cases head
      exact divides.word
  | cons w ws =>
      cases head
      exact word_space (spaces _ List.mem_cons_self)

theorem head_not_letter (spaces : rfc7159.Spaces ws) (divides : Divides c) :
    ∀ ch ∈ (ws ++ c :: more).head?, ¬ IsLetter ch :=
  fun ch head letter => head_stops spaces divides ch head (.inr (.inl letter))

/-- Spaces behind a number without characters are read before it. -/
theorem ends_divided (v : Json) (spaces : rfc7159.Spaces ws) (divides : Divides c) (more : List UInt8) :
    EndsAt v (ws ++ c :: more) ∨ (v = .number [] ∧ EndsAt v (c :: more)) := by
  have stops : ∀ ch ∈ (ws ++ c :: more).head?, ¬ IsWord ch := head_stops spaces divides
  have some : ws ++ c :: more ≠ [] := by simp
  cases v with
  | token chars => exact .inl ⟨some, head_not_letter spaces divides⟩
  | number chars =>
      cases chars with
      | nil =>
          refine .inr ⟨rfl, by simp, ?_, fun _ => divides.foreign more⟩
          intro st _ ch head
          cases head
          exact floatStep_stops divides.word st
      | cons d ds => exact .inl ⟨some, fun st _ ch head => floatStep_stops (stops ch head) st, nofun⟩
  | _ => exact .inl trivial

theorem loose_number_nil (derived : Derives loose (.value (.number [])) seg) : seg = [] := by
  cases derived
  rfl

/-- The first character of a value that is no literal. -/
theorem loose_first (derived : Derives loose (.value v) seg) :
    (∃ chars, v = .token chars) ∨ seg = [] ∨ ∃ d ds, seg = d :: ds ∧ ¬ rfc7159.space d ∧ ¬ IsLetter d := by
  cases derived with
  | string _ => exact .inr (.inr ⟨34, _, rfl, by simp [rfc7159], by decide⟩)
  | emptyObject _ | object _ _ => exact .inr (.inr ⟨123, _, rfl, by simp [rfc7159], by decide⟩)
  | emptyArray _ | array _ _ => exact .inr (.inr ⟨91, _, rfl, by simp [rfc7159], by decide⟩)
  | token _ => exact .inl ⟨_, rfl⟩
  | number allowed =>
      cases seg with
      | nil => exact .inr (.inl rfl)
      | cons d ds =>
          rcases allowed with ⟨st, run⟩
          have numeric := floatRun_first run
          exact .inr (.inr ⟨d, ds, rfl, numeric.1, numeric.2.1⟩)

theorem nextComma_comma (passes : Passes ctx mid taken (ws ++ 44 :: more)) (spaces : rfc7159.Spaces ws) :
    (nextComma mid).1 = .ok ∧ Passes ctx (nextComma mid).2 (taken ++ (ws ++ [44])) more := by
  have blank : Blank mid.unread ws (44 :: more) := .of_cons passes.unread spaces divides_comma.space
  rcases nextComma_found blank passes.inside with ⟨res, onward⟩
  exact ⟨res, passes.trans onward⟩

theorem nextComma_last (passes : Passes ctx mid taken (ws ++ c :: more)) (spaces : rfc7159.Spaces ws)
    (divides : Divides c) (other : c ≠ 44) :
    (nextComma mid).1 = .eos ∧ Passes ctx (nextComma mid).2 taken (ws ++ c :: more) := by
  have blank : Blank mid.unread ws (c :: more) := .of_cons passes.unread spaces divides.space
  rcases nextComma_other blank other passes.inside with ⟨res, onward⟩
  have onward := passes.trans onward
  rw [passes.unread, List.append_nil] at onward
  exact ⟨res, onward⟩

theorem letter_text (letter : IsLetter c) : ¬ rfc7159.space c := by
  simp only [IsLetter, rfc7159] at letter ⊢
  grind

theorem literal_word {chars : List UInt8} (literal : Literal chars) (split : ctx.unread = ws ++ (chars ++ left))
    (spaces : rfc7159.Spaces ws) (stops : ∀ ch ∈ left.head?, ¬ IsLetter ch) : Word ctx.unread ws chars left := by
  rcases literal.letters with ⟨c, cs, rfl, letter, letters⟩
  exact ⟨.of_cons split spaces (letter_text letter), List.forall_mem_cons.mpr ⟨letter, letters⟩, stops⟩

/-! A parser of values. -/

/-- A value is read to its end, and what there was changes as `G` says. -/
def ReadsToEnd (value : Expect S) (depth : Nat) (v : Json) (seg : List UInt8) (G : S → S → Prop) : Prop :=
  ∀ (ctx : JparseCtx) (s : S) (ws left : List UInt8), ctx.Inside → ctx.unread = ws ++ (seg ++ left) →
    rfc7159.Spaces ws → EndsAt v left → ctx.unread.length < depth →
    (value ctx s).1 = .ok ∧ G s (value ctx s).2.2 ∧ Passes ctx (value ctx s).2.1 (ws ++ seg) left

/-- A value is read with a mark behind it, and with some of the spaces before the mark. -/
def ReadsValue (value : Expect S) (depth : Nat) (seg : List UInt8) (G : S → S → Prop) : Prop :=
  ∀ (ctx : JparseCtx) (s : S) (ws ws₁ more : List UInt8) (c : UInt8), ctx.Inside →
    ctx.unread = ws ++ (seg ++ (ws₁ ++ c :: more)) → rfc7159.Spaces ws → rfc7159.Spaces ws₁ → Divides c →
    ctx.unread.length < depth →
    (value ctx s).1 = .ok ∧ G s (value ctx s).2.2 ∧
      ∃ a b, ws₁ = a ++ b ∧ Passes ctx (value ctx s).2.1 (ws ++ (seg ++ a)) (b ++ c :: more)

/-- A callback reads an item, and looks for the comma. -/
def ReadsItem (cb : Expect S) (depth : Nat) (seg : List UInt8) (G : S → S → Prop) : Prop :=
  ∀ (ctx : JparseCtx) (s : S) (ws ws₁ more : List UInt8) (c : UInt8), ctx.Inside →
    ctx.unread = ws ++ (seg ++ (ws₁ ++ c :: more)) → rfc7159.Spaces ws → rfc7159.Spaces ws₁ → Divides c →
    ctx.unread.length < depth →
    ∃ mid t a b, ws₁ = a ++ b ∧ Passes ctx mid (ws ++ (seg ++ a)) (b ++ c :: more) ∧
      cb ctx s = ((nextComma mid).1, (nextComma mid).2, t) ∧ G s t

theorem ReadsToEnd.divided (reads : ReadsToEnd value depth v seg G) (derived : Derives loose (.value v) seg) :
    ReadsValue value depth seg G := by
  intro ctx s ws ws₁ more c inside split spaces spaces₁ divides short
  rcases ends_divided v spaces₁ divides more with ends | ⟨rfl, ends⟩
  · rcases reads ctx s ws _ inside split spaces ends short with ⟨done, after, passes⟩
    refine ⟨done, after, [], ws₁, rfl, ?_⟩
    rw [List.append_nil]
    exact passes
  · have none := loose_number_nil derived
    subst none
    have spaces' : rfc7159.Spaces (ws ++ ws₁) := List.forall_mem_append.mpr ⟨spaces, spaces₁⟩
    have split' : ctx.unread = (ws ++ ws₁) ++ ([] ++ c :: more) := by
      rw [split]
      simp
    rcases reads ctx s _ _ inside split' spaces' ends short with ⟨done, after, passes⟩
    refine ⟨done, after, ws₁, [], (List.append_nil _).symm, ?_⟩
    rw [List.append_nil] at passes
    exact passes

theorem goingBack_ok (done : (value ctx s).1 = .ok) (spos : Nat) : goingBack spos value ctx s = value ctx s := by
  rw [goingBack]
  rcases run : value ctx s with ⟨res, next, t⟩
  rw [run] at done
  change res = .ok at done
  subst done
  rfl

theorem ReadsValue.goingBack (reads : ReadsValue value depth seg G) (spos : Nat) :
    ReadsValue (goingBack spos value) depth seg G := by
  intro ctx s ws ws₁ more c inside split spaces spaces₁ divides short
  have run := reads ctx s ws ws₁ more c inside split spaces spaces₁ divides short
  rw [goingBack_ok run.1]
  exact run

/-- What is no `null` is read from the same place again. -/
theorem expectMaybeNull_divided (derived : Derives loose (.value v) seg) (other : isNull v = false) (inside : ctx.Inside)
    (split : ctx.unread = ws ++ (seg ++ (ws₁ ++ c :: more))) (spaces : rfc7159.Spaces ws)
    (spaces₁ : rfc7159.Spaces ws₁) (divides : Divides c) :
    (expectMaybeNull ctx).1 = .notNull ∧ Passes ctx (expectMaybeNull ctx).2 [] ctx.unread := by
  have other : v ≠ .token [110, 117, 108, 108] := by
    intro same
    rw [isNull_iff.mpr same] at other
    cases other
  rcases loose_first derived with ⟨chars, rfl⟩ | rfl | ⟨d, ds, rfl, text, letter⟩
  · cases derived with
    | token literal =>
        have word := literal_word literal split spaces (head_not_letter spaces₁ divides)
        exact expectMaybeNull_other word (fun _ same => other (congrArg Json.token same)) inside
  · have spaces' : rfc7159.Spaces (ws ++ ws₁) := List.forall_mem_append.mpr ⟨spaces, spaces₁⟩
    have split' : ctx.unread = (ws ++ ws₁) ++ c :: more := by
      rw [split]
      simp
    exact expectMaybeNull_other (.none split' spaces' divides.space divides.letter) (fun _ => by simp) inside
  · exact expectMaybeNull_other (.none split spaces text letter) (fun _ => by simp) inside

/-- A `null` changes nothing. -/
theorem expectValue_reads (derived : Derives loose (.value v) seg) (reads : ReadsValue value depth seg G) :
    ReadsItem (expectValue value) depth seg fun s t => if isNull v then t = s else G s t := by
  intro ctx s ws ws₁ more c inside split spaces spaces₁ divides short
  by_cases null : isNull v = true
  · simp only [null, if_true]
    cases isNull_iff.mp null
    cases derived with
    | token literal =>
        have word := literal_word literal split spaces (head_not_letter spaces₁ divides)
        rcases expectMaybeNull_found word (by simp) inside with ⟨res, passes⟩
        refine ⟨(expectMaybeNull ctx).2, s, [], ws₁, rfl, ?_, ?_, rfl⟩
        · rw [List.append_nil]
          exact passes
        · exact expectValue_null res
  · rcases expectMaybeNull_divided derived (Bool.eq_false_iff.mpr null) inside split spaces spaces₁ divides
      with ⟨res, passes⟩
    have other : (expectMaybeNull ctx).1 ≠ .ok := by
      rw [res]
      simp
    have split' : (expectMaybeNull ctx).2.unread = ws ++ (seg ++ (ws₁ ++ c :: more)) := by rw [passes.unread, split]
    have short' : (expectMaybeNull ctx).2.unread.length < depth := by
      rw [passes.unread]
      exact short
    rcases reads (expectMaybeNull ctx).2 s ws ws₁ more c passes.inside split' spaces spaces₁ divides short'
      with ⟨done, after, a, b, parts, onward⟩
    refine ⟨(value (expectMaybeNull ctx).2 s).2.1, (value (expectMaybeNull ctx).2 s).2.2, a, b, parts,
      passes.trans onward, ?_, ?_⟩
    · rw [expectValue_other other, commaBehind_ok done]
    · dsimp only
      rwa [if_neg null]

theorem expectItem_reads (derived : Derives loose (.value v) seg) (reads : ReadsValue value depth seg G) :
    ReadsItem (expectItem value) depth seg fun s t => if isNull v then t = s else G s t := by
  intro ctx s ws ws₁ more c inside split spaces spaces₁ divides short
  rcases expectValue_reads derived (reads.goingBack ctx.pos) ctx.begun s ws ws₁ more c inside.begun split spaces spaces₁
    divides short with ⟨mid, t, a, b, parts, passes, run, after⟩
  exact ⟨mid, t, a, b, parts, passes.of_begun, run, after⟩

theorem ReadsItem.any (reads : ReadsItem cb depth seg G) : ReadsItem cb depth seg fun _ _ => True := by
  intro ctx s ws ws₁ more c inside split spaces spaces₁ divides short
  rcases reads ctx s ws ws₁ more c inside split spaces spaces₁ divides short with ⟨mid, t, a, b, parts, passes, run, -⟩
  exact ⟨mid, t, a, b, parts, passes, run, trivial⟩

/-! The loop over the items. -/

/-- The items are read to the bracket. -/
def ReadsItems (cb : Expect S) (depth : Nat) (seg : List UInt8) (G : S → S → Prop) : Prop :=
  ∀ (fuel : Nat) (ctx : JparseCtx) (s : S) (ws left : List UInt8), ctx.Inside → ctx.unread = ws ++ (seg ++ left) →
    rfc7159.Spaces ws → ctx.unread.length < depth → ctx.unread.length < fuel →
    Closes 93 ctx (ws ++ seg) left (iterate cb fuel ctx s) ∧ G s (iterate cb fuel ctx s).2.2

/-- The loop ends with a callback that has not found a comma. -/
theorem iterate_last (run : cb ctx s = (res, next, t)) (ended : res = .eos) (spaces : rfc7159.Spaces ws)
    (passes : Passes ctx next taken (ws ++ stop :: left)) (shape : seg = taken ++ (ws ++ [stop])) (fuel : Nat) :
    Closes stop ctx seg left (iterate cb (fuel + 1) ctx s) := by
  subst ended
  rw [iterate, run]
  exact ⟨rfl, taken, ws, spaces, shape, passes⟩

theorem iterate_stop (failed : (cb ctx s).1 ≠ .ok) (fuel : Nat) : iterate cb (fuel + 1) ctx s = cb ctx s := by
  rw [iterate]
  rcases run : cb ctx s with ⟨res, next, t⟩
  rw [run] at failed
  cases res with
  | ok => exact absurd rfl failed
  | _ => rfl

theorem iterate_more (run : cb ctx s = (res, next, t)) (done : res = .ok) (passes : Passes ctx next taken more)
    (closes : Closes stop next seg left (iterate cb fuel next t)) :
    Closes stop ctx (taken ++ seg) left (iterate cb (fuel + 1) ctx s) := by
  subst done
  rw [iterate, run]
  rcases closes with ⟨ended, taken', ws, spaces, shape, passes'⟩
  refine ⟨ended, taken ++ taken', ws, spaces, ?_, passes.trans passes'⟩
  rw [shape, List.append_assoc]

theorem ReadsItem.last (reads : ReadsItem cb depth seg G) (spaces₁ : rfc7159.Spaces ws₁) :
    ReadsItems cb depth (seg ++ (ws₁ ++ [93])) G := by
  intro fuel ctx s ws left inside split spaces short enough
  cases fuel with
  | zero => exact absurd enough (Nat.not_lt_zero _)
  | succ fuel =>
      have split' : ctx.unread = ws ++ (seg ++ (ws₁ ++ 93 :: left)) := by
        rw [split]
        simp
      rcases reads ctx s ws ws₁ left 93 inside split' spaces spaces₁ divides_bracket short
        with ⟨mid, t, a, b, parts, passes, run, after⟩
      have spaces' : rfc7159.Spaces b := by
        rw [parts] at spaces₁
        exact (List.forall_mem_append.mp spaces₁).2
      rcases nextComma_last passes spaces' divides_bracket (by decide) with ⟨res, onward⟩
      constructor
      · apply iterate_last run res spaces' onward
        rw [parts]
        simp
      · have failed : (cb ctx s).1 ≠ .ok := by
          rw [run, res]
          nofun
        rw [iterate_stop failed, run]
        exact after

theorem ReadsItem.item {H : S → S → Prop} (reads : ReadsItem cb depth seg G) (spaces₁ : rfc7159.Spaces ws₁)
    (spaces₂ : rfc7159.Spaces ws₂) (others : ReadsItems cb depth more H) :
    ReadsItems cb depth (seg ++ (ws₁ ++ 44 :: (ws₂ ++ more))) fun s t => ∃ u, G s u ∧ H u t := by
  intro fuel ctx s ws left inside split spaces short enough
  cases fuel with
  | zero => exact absurd enough (Nat.not_lt_zero _)
  | succ fuel =>
      have split' : ctx.unread = ws ++ (seg ++ (ws₁ ++ 44 :: (ws₂ ++ (more ++ left)))) := by
        rw [split]
        simp
      rcases reads ctx s ws ws₁ _ 44 inside split' spaces spaces₁ divides_comma short
        with ⟨mid, t, a, b, parts, passes, run, after⟩
      have spaces' : rfc7159.Spaces b := by
        rw [parts] at spaces₁
        exact (List.forall_mem_append.mp spaces₁).2
      rcases nextComma_comma passes spaces' with ⟨res, onward⟩
      have fewer : (nextComma mid).2.unread.length < ctx.unread.length := by
        rw [onward.unread, split']
        simp only [List.length_append, List.length_cons]
        omega
      rcases others fuel (nextComma mid).2 t ws₂ left onward.inside onward.unread spaces₂ (by omega) (by omega)
        with ⟨closes, turn⟩
      constructor
      · have whole := iterate_more run res onward closes
        have shape : ws ++ (seg ++ a) ++ (b ++ [44]) ++ (ws₂ ++ more) =
            ws ++ (seg ++ (ws₁ ++ 44 :: (ws₂ ++ more))) := by
          rw [parts]
          simp
        rw [shape] at whole
        exact whole
      · rw [res] at run
        rw [iterate, run]
        exact ⟨t, after, turn⟩

theorem ReadsItems.mono {H : S → S → Prop} (reads : ReadsItems cb depth seg G) (weaker : ∀ s t, G s t → H s t) :
    ReadsItems cb depth seg H := by
  intro fuel ctx s ws left inside split spaces short enough
  rcases reads fuel ctx s ws left inside split spaces short enough with ⟨closes, after⟩
  exact ⟨closes, weaker _ _ after⟩

section

variable {code : Nat → JparseRes}

theorem expectIter_closes (blank : Blank ctx.unread ws (start :: more)) (inside : ctx.Inside)
    (mark : ¬ rfc7159.space stop)
    (closes : ∀ next, Passes ctx next (ws ++ [start]) more →
      Closes stop next seg left (iterate cb (next.ahead + 2) next s)) :
    (expectIter (reachBody start) (reachBody stop) code cb ctx s).1 = .ok ∧
      Passes ctx (expectIter (reachBody start) (reachBody stop) code cb ctx s).2.1 (ws ++ start :: seg) left ∧
      ∃ next, Passes ctx next (ws ++ [start]) more ∧
        (expectIter (reachBody start) (reachBody stop) code cb ctx s).2.2 = (iterate cb (next.ahead + 2) next s).2.2 := by
  rcases reachBody_found blank.begun inside.begun with ⟨res, passes⟩
  rcases closes (reachBody start ctx.begun).2 passes.of_begun with ⟨ended, taken, ws', spaces, shape, onward⟩
  have fuelled : (iterate cb ((reachBody start ctx.begun).2.ahead + 2) (reachBody start ctx.begun).2 s).1 ≠ .outOfFuel := by
    rw [ended]
    simp
  have blank' := Blank.of_cons onward.unread spaces mark
  rcases reachBody_found blank' onward.inside with ⟨closed, passes'⟩
  have whole := (passes.trans (onward.trans passes')).of_begun
  rw [← shape, List.append_assoc] at whole
  rw [expectIter_eq, if_pos res, loopEnd_closed fuelled (.inl ended) closed]
  exact ⟨rfl, whole, _, passes.of_begun, rfl⟩

/-- Nothing is read where the callback fails at once. -/
theorem expectIter_empty (blank : Blank ctx.unread ws (start :: (ws' ++ stop :: left))) (inside : ctx.Inside)
    (spaces : rfc7159.Spaces ws') (mark : ¬ rfc7159.space stop)
    (fails : ∀ next, Passes ctx next (ws ++ [start]) (ws' ++ stop :: left) →
      ∃ res last t, cb next s = (res, last, t) ∧ res ≠ .ok ∧ res ≠ .outOfFuel ∧ Passes next last [] next.unread) :
    (expectIter (reachBody start) (reachBody stop) code cb ctx s).1 = .ok ∧
      Passes ctx (expectIter (reachBody start) (reachBody stop) code cb ctx s).2.1 (ws ++ start :: (ws' ++ [stop])) left ∧
      ∃ next, Passes ctx next (ws ++ [start]) (ws' ++ stop :: left) ∧
        (expectIter (reachBody start) (reachBody stop) code cb ctx s).2.2 = (cb next s).2.2 := by
  rcases reachBody_found blank.begun inside.begun with ⟨res, passes⟩
  rcases fails (reachBody start ctx.begun).2 passes.of_begun with ⟨res', last, t, run, failed, fuelled, still⟩
  have ended : iterate cb ((reachBody start ctx.begun).2.ahead + 2) (reachBody start ctx.begun).2 s = (res', last, t) := by
    rw [iterate_stop (by rw [run]; exact failed), run]
  have blank' : Blank last.unread ws' (stop :: left) := by
    rw [still.unread, passes.unread]
    exact .of_cons rfl spaces mark
  rcases reachBody_found blank' still.inside with ⟨closed, passes'⟩
  have whole := (passes.trans (still.trans passes')).of_begun
  have shape : ws ++ [start] ++ ([] ++ (ws' ++ [stop])) = ws ++ start :: (ws' ++ [stop]) := by simp
  rw [shape] at whole
  rw [expectIter_eq, if_pos res, ended, loopEnd_closed fuelled (.inr still.pos.symm) closed]
  exact ⟨rfl, whole, _, passes.of_begun, by rw [run]⟩

end

theorem ReadsItems.array (items : ReadsItems cb depth seg G) (spaces₁ : rfc7159.Spaces ws₁)
    (inside : ctx.Inside) (split : ctx.unread = ws ++ 91 :: (ws₁ ++ (seg ++ left))) (spaces : rfc7159.Spaces ws)
    (short : ctx.unread.length ≤ depth) :
    (jparseExpectArrayIter cb ctx s).1 = .ok ∧
      Passes ctx (jparseExpectArrayIter cb ctx s).2.1 (ws ++ 91 :: (ws₁ ++ seg)) left ∧
      G s (jparseExpectArrayIter cb ctx s).2.2 := by
  have blank : Blank ctx.unread ws (91 :: (ws₁ ++ (seg ++ left))) := .of_cons split spaces (by simp [rfc7159])
  have run : ∀ inner, Passes ctx inner (ws ++ [91]) (ws₁ ++ (seg ++ left)) →
      Closes 93 inner (ws₁ ++ seg) left (iterate cb (inner.ahead + 2) inner s) ∧
        G s (iterate cb (inner.ahead + 2) inner s).2.2 := by
    intro inner onward
    have here := onward.unread
    apply items _ inner s ws₁ left onward.inside here spaces₁
    · rw [split, List.length_append, List.length_cons] at short
      rw [here]
      omega
    · rw [ahead_eq]
      omega
  rcases @expectIter_closes _ ctx left _ ws (ws₁ ++ seg) 91 93 cb s .expectArrayIter blank inside (by simp [rfc7159])
    fun inner onward => (run inner onward).1 with ⟨done, passes, inner, onward, same⟩
  refine ⟨done, passes, ?_⟩
  have turn := (run inner onward).2
  rw [← same] at turn
  exact turn

end MnCommon.Jparse
