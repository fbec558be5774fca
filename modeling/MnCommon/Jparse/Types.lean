import MnCommon.Jparse.Accept

/-! The type that is left of a value that has been passed over. -/

namespace MnCommon.Jparse

open Grammars
open JsonParser (JsonType)

variable {ctx : JparseCtx} {left ws seg : List UInt8} {jval : JparseValue} {depth : Nat} {ty : JsonType} {v : Json}
  {vs : List Json} {comma : Bool}

/-- The type of a value. All the numbers are read as `JSON_FLOAT`. -/
def kind : Json → JsonType
  | .string _ => .string
  | .number _ => .float
  | .token chars => if chars = [110, 117, 108, 108] then .null else .boolean
  | .object _ => .object
  | .array _ _ => .array

mutual

/-- The type that is left. It is set for an object once more behind the members, but not for an
array behind the items, and in an array without items there is a number without characters. -/
def reported : Json → JsonType
  | .array [] _ => .float
  | .array (v :: vs) _ => itemsReported .array (v :: vs)
  | v => kind v

def itemsReported (ty : JsonType) : List Json → JsonType
  | [] => ty
  | v :: vs => itemsReported (if isNull v then ty else reported v) vs

end

/-- The items of the arrays whose type is left as it is: all of them are null, or the last one
other than null is such an array again. -/
inductive EndsInArray : List Json → Prop where
  | nulls {vs : List Json} : vs ≠ [] → (∀ v ∈ vs, isNull v = true) → EndsInArray vs
  | last {front inner back : List Json} {comma : Bool} : EndsInArray inner → (∀ v ∈ back, isNull v = true) →
      EndsInArray (front ++ .array inner comma :: back)

theorem itemsReported_append (front back : List Json) :
    itemsReported ty (front ++ back) = itemsReported (itemsReported ty front) back := by
  induction front generalizing ty with
  | nil => rfl
  | cons v front ih =>
      rw [List.cons_append, itemsReported, itemsReported]
      exact ih

theorem itemsReported_nulls (nulls : ∀ v ∈ vs, isNull v = true) : itemsReported ty vs = ty := by
  induction vs with
  | nil => rfl
  | cons v vs ih =>
      rcases List.forall_mem_cons.mp nulls with ⟨first, others⟩
      rw [itemsReported, if_pos first]
      exact ih others

theorem itemsReported_last {front back : List Json} (other : isNull v = false) (nulls : ∀ v ∈ back, isNull v = true) :
    itemsReported ty (front ++ v :: back) = reported v := by
  rw [itemsReported_append, itemsReported, other, itemsReported_nulls nulls]
  rfl

theorem reported_some (some : vs ≠ []) : reported (.array vs comma) = itemsReported .array vs := by
  cases vs with
  | nil => exact absurd rfl some
  | cons v vs => rfl

theorem nulls_or_last (vs : List Json) : (∀ v ∈ vs, isNull v = true) ∨
    ∃ front v back, vs = front ++ v :: back ∧ isNull v = false ∧ ∀ v ∈ back, isNull v = true := by
  induction vs with
  | nil => exact .inl nofun
  | cons v vs ih =>
      rcases ih with nulls | ⟨front, w, back, rfl, other, nulls⟩
      · cases null : isNull v with
        | true => exact .inl (List.forall_mem_cons.mpr ⟨null, nulls⟩)
        | false => exact .inr ⟨[], v, vs, rfl, null, nulls⟩
      · exact .inr ⟨v :: front, w, back, rfl, other, nulls⟩

theorem EndsInArray.reported (ends : EndsInArray vs) (comma : Bool) : reported (.array vs comma) = .array := by
  induction ends generalizing comma with
  | nulls some nulls => rw [reported_some some, itemsReported_nulls nulls]
  | @last _ _ _ inner _ nulls ih =>
      rw [reported_some (by simp), itemsReported_last rfl nulls]
      exact ih inner

theorem sizeOf_inner (front back inner : List Json) (comma : Bool) :
    sizeOf inner < sizeOf (front ++ .array inner comma :: back) := by
  have among : Json.array inner comma ∈ front ++ .array inner comma :: back := by simp
  have item := List.sizeOf_lt_of_mem among
  rw [Json.array.sizeOf_spec] at item
  omega

theorem endsInArray_of_reported (vs : List Json) (comma : Bool) (same : reported (.array vs comma) = .array) :
    EndsInArray vs := by
  have some : vs ≠ [] := by
    rintro rfl
    cases same
  rw [reported_some some] at same
  rcases nulls_or_last vs with nulls | ⟨front, v, back, shape, other, nulls⟩
  · exact .nulls some nulls
  · rw [shape, itemsReported_last other nulls] at same
    cases v with
    | array inner comma =>
        have smaller : sizeOf inner < sizeOf vs := by
          rw [shape]
          exact sizeOf_inner front back inner comma
        rw [shape]
        exact .last (endsInArray_of_reported inner comma same) nulls
    | token chars =>
        change kind (.token chars) = .array at same
        rw [kind] at same
        split at same <;> cases same
    | _ => cases same
termination_by sizeOf vs

/-- A value keeps its type if it is no array, or an array of that kind. -/
theorem reported_iff (v : Json) : reported v = kind v ↔ ∀ vs comma, v = .array vs comma → EndsInArray vs := by
  cases v with
  | array vs comma =>
      constructor
      · intro same vs' comma' shape
        cases shape
        exact endsInArray_of_reported vs comma same
      · exact fun ends => (ends vs comma rfl).reported comma
  | _ => exact ⟨nofun, fun _ => rfl⟩

/-! What the parser does. -/

theorem ignoreStr_ty (done : (ignoreStr ctx jval).1 = .ok) : (ignoreStr ctx jval).2.2.ty = .string := by
  rw [ignoreStr] at done ⊢
  dsimp only at done ⊢
  rw [if_pos done]

theorem ignoreObject_ty {ignore : Expect JparseValue} (done : (ignoreObject ignore ctx jval).1 = .ok) :
    (ignoreObject ignore ctx jval).2.2.ty = .object := by
  rw [ignoreObject] at done ⊢
  dsimp only at done ⊢
  rw [if_pos done]

theorem ignoreFloat_ty (done : (ignoreFloat ctx jval).1 = .ok) : (ignoreFloat ctx jval).2.2.ty = .float := by
  rw [ignoreFloat] at done ⊢
  dsimp only at done ⊢
  rw [if_pos done]

/-- The type that is left of a phrase. -/
def Typed : Phrase → List UInt8 → Prop
  | .value v, seg => ∀ depth, ReadsToEnd (ignoreWithin depth) depth v seg fun _ jval => jval.ty = reported v
  | .members _, _ => True
  | .items vs _, seg => ∀ depth, ReadsItems (jparseExpectItemIgnore (ignoreWithin depth)) depth seg
      fun jval jval' => jval'.ty = itemsReported jval.ty vs

/-- A value that is accepted. -/
theorem typed_value (derived : Derives loose (.value v) seg)
    (typed : ∀ (depth : Nat) (ctx : JparseCtx) (jval : JparseValue) (ws left : List UInt8), ctx.Inside →
      ctx.unread = ws ++ (seg ++ left) → rfc7159.Spaces ws → EndsAt v left → ctx.unread.length ≤ depth →
      (ignoreWithin (depth + 1) ctx jval).1 = .ok → (ignoreWithin (depth + 1) ctx jval).2.2.ty = reported v) :
    Typed (.value v) seg := by
  intro depth ctx jval ws left inside split spaces ends short
  rcases loose_accepted derived depth ctx jval ws left inside split spaces ends short with ⟨done, passes⟩
  refine ⟨done, ?_, passes⟩
  cases depth with
  | zero => exact absurd short (Nat.not_lt_zero _)
  | succ depth => exact typed depth ctx jval ws left inside split spaces ends (Nat.le_of_lt_succ short) done

/-- The values that begin with a mark, with the parser that it tells. -/
theorem typed_mark {c : UInt8} {more : List UInt8} {parser : Nat → Expect JparseValue}
    (derived : Derives loose (.value v) (c :: more)) (text : ¬ rfc7159.space c) (mark : ¬ IsLetter c)
    (chosen : ∀ depth, (if c = 34 then ignoreStr else if c = 123 then ignoreObject (ignoreWithin depth)
      else if c = 91 then ignoreArray (ignoreWithin depth) else ignoreFloat) = parser depth)
    (typed : ∀ (depth : Nat) (next : JparseCtx) (jval : JparseValue) (left : List UInt8), next.Inside →
      next.unread = c :: (more ++ left) → next.unread.length ≤ depth → (parser depth next jval).1 = .ok →
      (parser depth next jval).2.2.ty = reported v) :
    Typed (.value v) (c :: more) := by
  apply typed_value derived
  intro depth ctx jval ws left inside split spaces _ short done
  rcases ignoreWithin_mark split spaces text mark inside jval depth with ⟨next, passes, same⟩
  rw [same, chosen] at done ⊢
  rcases ignoreEnd_inv done with ⟨done, plain⟩
  rw [plain]
  apply typed depth next jval left passes.inside passes.unread _ done
  rw [split, List.length_append] at short
  rw [passes.unread]
  exact Nat.le_trans (Nat.le_add_left _ _) short

theorem typed_string {body : List UInt8} (closed : Closed body) : Typed (.value (.string body)) (34 :: (body ++ [34])) := by
  apply typed_mark (.string closed) (by simp [rfc7159]) (by decide) (fun _ => rfl)
  intro depth next jval left _ _ _ done
  exact ignoreStr_ty done

theorem typed_object {ms : List (List UInt8 × Json)} {more : List UInt8}
    (derived : Derives loose (.value (.object ms)) (123 :: more)) : Typed (.value (.object ms)) (123 :: more) := by
  apply typed_mark derived (by simp [rfc7159]) (by decide) (fun _ => rfl)
  intro depth next jval left _ _ _ done
  exact ignoreObject_ty done

/-- The items of an array without items are a number without characters. -/
theorem typed_array {vs vs' : List Json} {ws₁ : List UInt8} {comma comma' : Bool}
    (derived : Derives loose (.value (.array vs comma)) (91 :: (ws₁ ++ seg))) (spaces₁ : rfc7159.Spaces ws₁)
    (items : Typed (.items vs' comma') seg) (same : reported (.array vs comma) = itemsReported .array vs') :
    Typed (.value (.array vs comma)) (91 :: (ws₁ ++ seg)) := by
  apply typed_mark derived (by simp [rfc7159]) (by decide) (fun _ => rfl)
  intro depth next jval left inside split short _
  have split : next.unread = [] ++ 91 :: (ws₁ ++ (seg ++ left)) := by
    rw [split, List.nil_append, List.append_assoc]
  have nothing : rfc7159.Spaces [] := rfc7159.spaces_nil
  rw [same]
  exact (ReadsItems.array (items depth) spaces₁ inside split nothing short).2.2

theorem typed_number {chars : List UInt8} {st : FloatState} (run : chars.foldlM floatStep .floatIn = some st) :
    Typed (.value (.number chars)) chars := by
  apply typed_value (.number ⟨st, run⟩)
  intro depth ctx jval ws left inside split spaces ends _ done
  rcases @ignoreWithin_number ctx _ _ jval depth _ _ run inside split spaces ends with ⟨next, -, same⟩
  rw [same] at done ⊢
  rcases ignoreEnd_inv done with ⟨done, plain⟩
  rw [plain]
  exact ignoreFloat_ty done

theorem typed_token {chars : List UInt8} (literal : Literal chars) : Typed (.value (.token chars)) chars := by
  apply typed_value (.token literal)
  intro depth ctx jval ws left inside split spaces ends _ _
  exact (ignoreWithin_literal (literal_word literal split spaces ends.2) literal ends.1 inside).2.2

theorem typed_item (derived : Derives loose (.value v) seg) (typed : Typed (.value v) seg) (depth : Nat) :
    ReadsItem (jparseExpectItemIgnore (ignoreWithin depth)) depth seg
      fun jval jval' => if isNull v then jval' = jval else jval'.ty = reported v :=
  expectItem_reads derived ((typed depth).divided derived)

theorem loose_typed {p : Phrase} (derived : Derives loose p seg) : Typed p seg := by
  have after : ∀ (v : Json) (jval jval' : JparseValue), (if isNull v then jval' = jval else jval'.ty = reported v) →
      jval'.ty = if isNull v then jval.ty else reported v := by
    intro v jval jval' left
    split at left
    · next null => rw [if_pos null, left]
    · next other => rw [if_neg other, left]
  induction derived with
  | string closed => exact typed_string closed
  | number allowed =>
      rcases allowed with ⟨st, run⟩
      exact typed_number run
  | token literal => exact typed_token literal
  | emptyObject spaces => exact typed_object (.emptyObject spaces)
  | object spaces derived _ => exact typed_object (.object spaces derived)
  | emptyArray spaces =>
      have run : ([] : List UInt8).foldlM floatStep .floatIn = some .floatIn := rfl
      have nothing : rfc7159.Spaces [] := rfc7159.spaces_nil
      have items : Typed (.items [.number []] false) ([] ++ ([] ++ [93])) := fun depth =>
        ((typed_item (.number ⟨_, run⟩) (typed_number run) depth).last nothing).mono fun _ _ left => left
      exact typed_array (.emptyArray spaces) spaces items rfl
  | @array _ _ vs _ spaces derived ih =>
      have same : ∀ comma, reported (.array vs comma) = itemsReported .array vs := by
        cases vs with
        | nil => cases derived
        | cons v vs => exact fun _ => rfl
      exact typed_array (.array spaces derived) spaces ih (same _)
  | lastMember _ _ _ _ _ _ => trivial
  | member _ _ _ _ _ _ _ _ _ => trivial
  | lastItem derived spaces ih =>
      intro depth
      apply ((typed_item derived ih depth).last spaces).mono
      intro jval jval' left
      exact after _ _ _ left
  | comma never _ _ _ _ => exact never.elim
  | item derived spaces spaces' _ ih others =>
      intro depth
      apply ((typed_item derived ih depth).item spaces spaces' (others depth)).mono
      rintro jval jval' ⟨mid, first, rest⟩
      rw [rest, itemsReported, after _ _ _ first]

/-- The type that is left is the one of the value just when the value is no array, or an array that ends in one as
deep as it goes. -/
theorem reported_type_iff (ctx : JparseCtx) (inside : ctx.Inside) (jval : JparseValue) (v : Json)
    (ws seg left : List UInt8) (c : UInt8) (spaces : rfc7159.Spaces ws) (derived : Derives rfc7159 (.value v) seg)
    (ended : (Phrase.value v).Open → ¬ IsWord c) (text : ctx.unread = ws ++ (seg ++ c :: left)) :
    ((jparseExpectIgnore ctx jval).1 = .ok → (jparseExpectIgnore ctx jval).2.2.ty = kind v) ↔
      ∀ vs comma, v = .array vs comma → EndsInArray vs := by
  have read : ReadsToEnd (ignoreWithin (ctx.ahead + 1)) (ctx.ahead + 1) v seg fun _ jval => jval.ty = reported v :=
    loose_typed (loosened derived) _
  rcases read ctx jval ws (c :: left) inside text spaces (endsAt_word derived ended) (unread_lt ctx) with ⟨done, left, -⟩
  change (jparseExpectIgnore ctx jval).1 = .ok at done
  change (jparseExpectIgnore ctx jval).2.2.ty = reported v at left
  rw [left, ← reported_iff]
  exact ⟨fun same => same done, fun same _ => same⟩

/-- The text is `[[null]] `. -/
theorem reported_type_iff_nested :
    ((jparseExpectIgnore (jparseStart [[91, 91, 110, 117, 108, 108], [93, 93, 32]]) jparseValueInit).1 = .ok →
        (jparseExpectIgnore (jparseStart [[91, 91, 110, 117, 108, 108], [93, 93, 32]]) jparseValueInit).2.2.ty = .array) ↔
      ∀ vs comma, Json.array [.array [.token [110, 117, 108, 108]] false] false = .array vs comma → EndsInArray vs := by
  have none : rfc7159.Spaces [] := rfc7159.spaces_nil
  have null : Derives rfc7159 (.value (.token [110, 117, 108, 108])) [110, 117, 108, 108] :=
    .token (by simp [rfc7159, Literal])
  have derived : Derives rfc7159 (.value (.array [.array [.token [110, 117, 108, 108]] false] false))
      [91, 91, 110, 117, 108, 108, 93, 93] :=
    .array none (.lastItem (.array none (.lastItem null none)) none)
  exact reported_type_iff (jparseStart [[91, 91, 110, 117, 108, 108], [93, 93, 32]]) (jparseStart_inside (by simp))
    jparseValueInit (.array [.array [.token [110, 117, 108, 108]] false] false) [] [91, 91, 110, 117, 108, 108, 93, 93] [] 32
    none derived (fun _ => by decide) rfl

/-- The text is `[1] `. -/
theorem array_reported_number :
    (jparseExpectIgnore (jparseStart [[91, 49, 93, 32]]) jparseValueInit).1 = .ok ∧
      (jparseExpectIgnore (jparseStart [[91, 49, 93, 32]]) jparseValueInit).2.2.ty ≠ kind (.array [.number [49]] false) := by
  constructor
  · rfl
  · exact nofun

end MnCommon.Jparse
