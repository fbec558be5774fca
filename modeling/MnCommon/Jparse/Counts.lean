import MnCommon.Jparse.Accept

/-! How often the parser of an item finds one. -/

namespace MnCommon.Jparse

open Grammars

variable {S : Type} {ctx : JparseCtx} {left ws seg chars : List UInt8} {item : Expect S} {handle : JparseRes → S → S}
  {s : S} {depth : Nat} {v : Json} {vs : List Json} {comma : Bool} {G : S → S → Prop}

/-- A callback that counts the results of its parser that are 0 or `JPARSE_EOS`, and does with
its memory what it likes. -/
def counted (item : Expect S) (handle : JparseRes → S → S) : Expect (S × Nat) := fun ctx s =>
  let (res, ctx, t) := item ctx s.1
  (res, ctx, handle res t, if res = .ok ∨ res = .eos then s.2 + 1 else s.2)

/-- The array is read to its end, with a result for each item. -/
def OnePerItem (vs : List Json) (r : JparseRes × JparseCtx × S × Nat) : Prop := r.1 = .ok ∧ r.2.2.2 = vs.length

theorem ReadsItem.counted (reads : ReadsItem item depth seg G) (handle : JparseRes → S → S) :
    ReadsItem (counted item handle) depth seg fun s t => t.2 = s.2 + 1 := by
  intro ctx s ws ws₁ more c inside split spaces spaces₁ divides short
  rcases reads ctx s.1 ws ws₁ more c inside split spaces spaces₁ divides short
    with ⟨mid, t, a, b, parts, passes, run, -⟩
  refine ⟨mid, (handle (nextComma mid).1 t, s.2 + 1), a, b, parts, passes, ?_, rfl⟩
  rw [Jparse.counted, run]
  dsimp only
  rw [if_pos (nextComma_res mid)]

theorem counted_items (derived : Derives loose (.items vs comma) seg)
    (reads : ∀ v ∈ vs, ∀ seg, Derives loose (.value v) seg → ReadsItem item depth seg fun _ _ => True) :
    ReadsItems (counted item handle) depth seg fun s t => t.2 = s.2 + vs.length := by
  induction vs generalizing seg with
  | nil => cases derived
  | cons v vs ih =>
      rcases List.forall_mem_cons.mp reads with ⟨first, others⟩
      cases derived with
      | lastItem derived spaces => exact ((first _ derived).counted handle).last spaces
      | comma never _ _ _ => exact never.elim
      | item derived spaces spaces' rest =>
          apply (((first _ derived).counted handle).item spaces spaces' (ih rest others)).mono
          rintro s t ⟨u, step, turn⟩
          rw [turn, step, List.length_cons]
          omega

/-- In front of the bracket there is an item as well, a number without characters. -/
theorem counted_array (derived : Derives loose (.value (.array vs comma)) seg)
    (reads : ∀ v, v ∈ vs ∨ v = .number [] → ∀ seg, Derives loose (.value v) seg →
      ReadsItem item (ctx.unread.length + 1) seg fun _ _ => True)
    (inside : ctx.Inside) (split : ctx.unread = ws ++ (seg ++ left)) (spaces : rfc7159.Spaces ws) :
    OnePerItem vs (jparseExpectArrayIter (counted item handle) ctx (s, 0)) ↔ vs ≠ [] := by
  have loop : ∀ ws₁ seg₁, rfc7159.Spaces ws₁ → seg = 91 :: (ws₁ ++ seg₁) → ∀ n,
      ReadsItems (counted item handle) (ctx.unread.length + 1) seg₁ (fun s t => t.2 = s.2 + n) →
      (jparseExpectArrayIter (counted item handle) ctx (s, 0)).1 = .ok ∧
        (jparseExpectArrayIter (counted item handle) ctx (s, 0)).2.2.2 = n := by
    intro ws₁ seg₁ spaces₁ shape n items
    have split : ctx.unread = ws ++ 91 :: (ws₁ ++ (seg₁ ++ left)) := by
      rw [split, shape]
      simp
    rcases items.array spaces₁ inside split spaces (Nat.le_succ _) with ⟨done, -, count⟩
    exact ⟨done, count.trans (Nat.zero_add n)⟩
  have one : ∃ st, ([] : List UInt8).foldlM floatStep .floatIn = some st := ⟨.floatIn, rfl⟩
  cases derived with
  | emptyArray spaces₁ =>
      have bare : rfc7159.Spaces [] := rfc7159.spaces_nil
      have nothing := (reads (.number []) (.inr rfl) [] (.number one)).counted handle
      rcases loop _ _ spaces₁ rfl 1 (nothing.last bare) with ⟨-, count⟩
      refine ⟨fun counts => ?_, fun some => absurd rfl some⟩
      rw [OnePerItem, count] at counts
      exact absurd counts.2 Nat.one_ne_zero
  | array spaces₁ derived =>
      have counts := loop _ _ spaces₁ rfl vs.length (counted_items derived fun v among => reads v (.inl among))
      have some : vs ≠ [] := by
        rintro rfl
        cases derived
      exact ⟨fun _ => some, fun _ => counts⟩

theorem expectIgnore_ends (derived : Derives loose (.value v) seg) (jval : Place S JparseValue) :
    ReadsToEnd (expectIgnore jval) depth v seg fun _ _ => True := by
  intro ctx s ws left inside split spaces ends _
  rcases loose_accepted derived (ctx.ahead + 1) ctx (jval.get s) ws left inside split spaces ends (unread_lt ctx)
    with ⟨done, passes⟩
  exact ⟨done, trivial, passes⟩

theorem expectFloat_ends {st : FloatState} (run : chars.foldlM floatStep .floatIn = some st)
    (float : Place S (List UInt8)) : ReadsToEnd (expectFloat float) depth (.number chars) chars fun _ _ => True := by
  intro ctx s ws left inside split spaces ends _
  rcases number_first run ends with ⟨c, more, here, text⟩
  have blank : Blank ctx.unread ws (chars ++ left) := by
    rw [here] at split ⊢
    exact .of_cons split spaces text
  have run' : Run floatStep .floatIn (chars ++ left) chars st left := ⟨rfl, run, ends.2.1 st run⟩
  rcases jparseExpectFloat_run blank run' inside with ⟨res, onward⟩
  exact ⟨res.mpr ends.1, trivial, onward ends.1⟩

/-- There is one result of the parser for each item just when there are items. -/
theorem one_result_per_item_iff (ctx : JparseCtx) (inside : ctx.Inside) (s : S) (jval : Place S JparseValue)
    (float : Place S (List UInt8)) (handle : JparseRes → S → S) (vs : List Json) (comma : Bool) (ws seg left : List UInt8)
    (spaces : rfc7159.Spaces ws) (derived : Derives rfc7159 (.value (.array vs comma)) seg)
    (text : ctx.unread = ws ++ (seg ++ left)) :
    (OnePerItem vs (jparseExpectArrayIter (counted (jparseExpectItemIgnoreAt jval) handle) ctx (s, 0)) ↔ vs ≠ []) ∧
      ((∀ v ∈ vs, ∃ chars, v = .number chars) →
        (OnePerItem vs (jparseExpectArrayIter (counted (jparseExpectItemFloat float) handle) ctx (s, 0)) ↔ vs ≠ [])) := by
  constructor
  · refine counted_array (loosened derived) (fun v _ seg derived => ?_) inside text spaces
    exact (expectItem_reads derived ((expectIgnore_ends derived jval).divided derived)).any
  · intro numbers
    refine counted_array (loosened derived) (fun v among seg derived => ?_) inside text spaces
    have number : ∃ chars, v = .number chars := by
      rcases among with among | rfl
      · exact numbers v among
      · exact ⟨[], rfl⟩
    rcases number with ⟨chars, rfl⟩
    cases derived with
    | number allowed =>
        have whole := Derives.number (L := loose) allowed
        rcases allowed with ⟨st, run⟩
        exact (expectItem_reads whole ((expectFloat_ends run float).divided whole)).any

/-- A client with a value and a number. -/
def valueMember : Place (JparseValue × List UInt8) JparseValue := { get := Prod.fst, set := fun v s => (v, s.2) }

def numberMember : Place (JparseValue × List UInt8) (List UInt8) := { get := Prod.snd, set := fun v s => (s.1, v) }

/-- The text is `[1,2]`, in two chunks. -/
theorem one_result_per_item_iff_pair :
    (OnePerItem [.number [49], .number [50]] (jparseExpectArrayIter (counted (jparseExpectItemIgnoreAt valueMember)
        fun _ s => s) (jparseStart [[91, 49, 44], [50, 93]]) ((jparseValueInit, []), 0)) ↔
      [Json.number [49], .number [50]] ≠ []) ∧
    (OnePerItem [.number [49], .number [50]] (jparseExpectArrayIter (counted (jparseExpectItemFloat numberMember)
        fun _ s => s) (jparseStart [[91, 49, 44], [50, 93]]) ((jparseValueInit, []), 0)) ↔
      [Json.number [49], .number [50]] ≠ []) := by
  have digit : ∀ d, IsDigit d → d ≠ 48 → Number [d] := fun d digit first =>
    ⟨[], [d], [], [], rfl, .inl rfl, .inr ⟨⟨by simp, by simpa using digit⟩, by simpa using first⟩, .inl rfl, .inl rfl⟩
  have none : rfc7159.Spaces [] := rfc7159.spaces_nil
  have derived : Derives rfc7159 (.value (.array [.number [49], .number [50]] false)) [91, 49, 44, 50, 93] :=
    .array none (.item (.number (digit 49 (by decide) (by decide))) none none
      (.lastItem (.number (digit 50 (by decide) (by decide))) none))
  have counts := one_result_per_item_iff (jparseStart [[91, 49, 44], [50, 93]]) (jparseStart_inside (by simp))
    (jparseValueInit, []) valueMember numberMember (fun _ s => s) _ _ [] _ [] none derived rfl
  exact ⟨counts.1, counts.2 (by simp)⟩

/-- The text is `[]`, and the parser finds a number without characters in it. -/
theorem item_of_empty_array :
    ¬ OnePerItem [] (jparseExpectArrayIter (counted (jparseExpectItemIgnoreAt .whole) fun _ jval => jval)
        (jparseStart [[91, 93]]) (jparseValueInit, 0)) ∧
      ¬ OnePerItem [] (jparseExpectArrayIter (counted (jparseExpectItemFloat .whole) fun _ text => text)
        (jparseStart [[91, 93]]) ([], 0)) := by
  constructor <;> exact fun counts => nomatch counts.2

end MnCommon.Jparse
