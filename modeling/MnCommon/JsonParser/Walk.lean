import MnCommon.JsonParser.Calls

/-! The reader and the parser side by side. -/

namespace MnCommon.JsonParser

open Grammars (Closed)

variable {U A : Type} {handlers : JsonHandlers U A} {ctx ctx' : JsonCtx U A} {loops : List Container} {l : Look}
  {r : Reader}

structure Stands (r : Reader) (ctx : JsonCtx U A) : Prop where
  st : ctx.st = r.st
  left : ctx.input.drop ctx.idx = r.rest
  nest : ctx.nest = r.nest
  held : r.loops.length ≤ r.opened.length

def Container.opening : Container → UInt8
  | .object => 123
  | .array => 91

def Container.closing : Container → UInt8
  | .object => 125
  | .array => 93

/-- What the reader passes is there. -/
def Passes (loops : List Container) (st : JsonState) (rest : List UInt8) : Look → Prop
  | .pass st' => (∃ c cs, rest = c :: cs) ∧ (st' = st ∨ st' = .eValue ∨ st' = .eNext)
  | .key body | .string body => Closed body ∧ ∃ after, rest = 34 :: (body ++ 34 :: after)
  | .number chars => ∃ c cs d after, chars = c :: cs ∧ (∀ x ∈ cs, NumChar x) ∧ ¬ NumChar d ∧
      rest = c :: cs ++ d :: after
  | .token chars => ∃ c cs d after, chars = c :: cs ∧ (∀ x ∈ cs, TokChar x) ∧ ¬ TokChar d ∧
      rest = c :: cs ++ d :: after
  | .enter k => (∃ cs, rest = k.opening :: cs) ∧ (loops = [] → st = .start)
  | .leave => ∃ k outer cs, loops = k :: outer ∧ rest = k.closing :: cs
  | .lapse => ∃ k outer cs, loops = k :: outer ∧ rest = 0 :: cs
  | .reject res => loops ≠ [] ∧ res ≠ .needMore
  | .finished | .cut => True

theorem lookKey_passes (st : JsonState) (cs : List UInt8) : Passes loops st (34 :: cs) (lookKey cs) := by
  rw [lookKey]
  cases found : stringBody cs with
  | none => trivial
  | some body =>
      rcases stringBody_some found with ⟨closed, after, rfl⟩
      exact ⟨closed, after, rfl⟩

theorem lookSpace_passes {k : Container} {res : Failure} (st : JsonState) (c : UInt8) (cs : List UInt8)
    (other : res ≠ .needMore) : Passes (k :: loops) st (c :: cs) (lookSpace st c res) := by
  rw [lookSpace]
  split_ifs
  · exact ⟨⟨c, cs, rfl⟩, .inl rfl⟩
  · exact ⟨List.cons_ne_nil k loops, other⟩

theorem lookValue_passes {c : UInt8} {first : Opening} {k : Container} (st : JsonState) (opens : opening c = some first)
    (cs : List UInt8) : Passes (k :: loops) st (c :: cs) (lookValue c cs first) := by
  rcases opening_cases opens with ⟨rfl, rfl⟩ | ⟨rfl, rfl⟩ | ⟨rfl, rfl⟩ | ⟨rfl, -⟩ | ⟨rfl, -⟩
  · exact ⟨⟨cs, rfl⟩, nofun⟩
  · exact ⟨⟨cs, rfl⟩, nofun⟩
  · rw [lookValue]
    cases found : stringBody cs with
    | none => trivial
    | some body =>
        rcases stringBody_some found with ⟨closed, after, rfl⟩
        exact ⟨closed, after, rfl⟩
  · rw [lookValue]
    cases found : wordOf NumChar cs with
    | none => trivial
    | some word =>
        rcases wordOf_some found with ⟨all, d, after, rfl, ends⟩
        exact ⟨c, word, d, after, rfl, all, ends, rfl⟩
  · rw [lookValue]
    cases found : wordOf TokChar cs with
    | none => trivial
    | some word =>
        rcases wordOf_some found with ⟨all, d, after, rfl, ends⟩
        exact ⟨c, word, d, after, rfl, all, ends, rfl⟩

theorem lookObject_passes (st : JsonState) (c : UInt8) (cs : List UInt8) (outer : List Container) :
    Passes (.object :: outer) st (c :: cs) (lookObject st c cs) := by
  have leave (st : JsonState) (close : c = 125) : Passes (.object :: outer) st (c :: cs) .leave :=
    ⟨.object, outer, cs, rfl, close ▸ rfl⟩
  have key (st : JsonState) (quote : c = 34) : Passes (.object :: outer) st (c :: cs) (lookKey cs) :=
    quote ▸ lookKey_passes st cs
  cases st with
  | ostart =>
      simp only [lookObject]
      split_ifs with close quote
      · exact leave _ close
      · exact key _ quote
      · exact lookSpace_passes _ _ _ (by simp)
  | keyOut =>
      simp only [lookObject]
      split_ifs
      · exact ⟨⟨c, cs, rfl⟩, .inr (.inl rfl)⟩
      · exact lookSpace_passes _ _ _ (by simp)
  | eValue =>
      simp only [lookObject]
      cases opens : opening c with
      | none => exact lookSpace_passes _ _ _ (by simp)
      | some first => exact lookValue_passes _ opens cs
  | eNext =>
      simp only [lookObject]
      split_ifs with quote
      · exact key _ quote
      · exact lookSpace_passes _ _ _ (by simp)
  | strOut | numOut | tokOut | ostop | astop =>
      simp only [lookObject, JsonState.isOut, if_true]
      split_ifs with comma close
      · exact ⟨⟨c, cs, rfl⟩, .inr (.inr rfl)⟩
      · exact leave _ close
      · exact lookSpace_passes _ _ _ (by simp)
  | _ => exact ⟨List.cons_ne_nil _ outer, by simp⟩

theorem lookArray_passes (st : JsonState) (c : UInt8) (cs : List UInt8) (outer : List Container) :
    Passes (.array :: outer) st (c :: cs) (lookArray st c cs) := by
  have leave (st : JsonState) (close : c = 93) : Passes (.array :: outer) st (c :: cs) .leave :=
    ⟨.array, outer, cs, rfl, close ▸ rfl⟩
  cases st with
  | astart | eNext =>
      simp only [lookArray]
      split_ifs with close
      · exact leave _ close
      · cases opens : opening c with
        | none => exact lookSpace_passes _ _ _ (by simp)
        | some first => exact lookValue_passes _ opens cs
  | strOut | numOut | tokOut | ostop | astop =>
      simp only [lookArray, JsonState.isOut, if_true]
      split_ifs with comma close
      · exact ⟨⟨c, cs, rfl⟩, .inr (.inr rfl)⟩
      · exact leave _ close
      · exact lookSpace_passes _ _ _ (by simp)
  | _ => exact ⟨List.cons_ne_nil _ outer, by simp⟩

theorem look_passes (loops : List Container) (st : JsonState) (rest : List UInt8) :
    Passes loops st rest (look loops st rest) := by
  cases rest with
  | nil => trivial
  | cons c cs =>
      cases loops with
      | nil =>
          simp only [look, lookTop]
          split_ifs with zero brace bracket
          · trivial
          · exact ⟨⟨cs, by rw [brace.2]; rfl⟩, fun _ => brace.1⟩
          · exact ⟨⟨cs, by rw [bracket.2]; rfl⟩, fun _ => bracket.1⟩
          · exact ⟨⟨c, cs, rfl⟩, .inl rfl⟩
      | cons k outer =>
          cases k with
          | object =>
              simp only [look]
              split_ifs with zero
              · exact ⟨.object, outer, cs, rfl, zero ▸ rfl⟩
              · exact lookObject_passes st c cs outer
          | array =>
              simp only [look]
              split_ifs with zero
              · exact ⟨.array, outer, cs, rfl, zero ▸ rfl⟩
              · exact lookArray_passes st c cs outer

theorem Reader.passes (r : Reader) : Passes r.loops r.st r.rest r.look := look_passes r.loops r.st r.rest

/-- A callback finds what the reader has read. -/
theorem ready_seen (stands : Stands r ctx) {n : Notice} (told : n ∈ r.look.notices r.loops r.st) :
    observe n.callback (r.look.ready r.loops ctx) = r.look.event r.loops r.nest n.callback := by
  have passes := r.passes
  rw [← stands.left] at passes
  cases looks : r.look with
  | key body | string body =>
      rw [looks] at passes
      rcases passes with ⟨closed, after, left⟩
      have text := (Faces.of_left left).step.slice
      simp only [Look.ready, Look.event, observe, JsonCtx.inward, JsonCtx.strMarked, JsonCtx.strEnded, JsonCtx.strBegun,
        Nat.add_sub_cancel_left, text, stands.nest]
  | number chars =>
      rw [looks] at passes
      rcases passes with ⟨c, cs, d, after, rfl, all, ends, left⟩
      rw [Look.event, ← stands.nest]
      exact numMarked_seen all _
  | token chars =>
      rw [looks] at passes
      rcases passes with ⟨c, cs, d, after, rfl, all, ends, left⟩
      rcases tokenValue_seen (Faces.of_left left) n.callback with ⟨ty, v, made, seen⟩
      rw [Look.event, ← stands.nest, ← seen]
      change observe n.callback (tokenValue ctx.idx (ctx.tokEnded (ctx.idx + cs.length))).inward = _
      rw [made]
      rfl
  | enter k =>
      rw [Look.event, ← stands.nest]
      cases k <;> rfl
  | leave =>
      change _ = (⟨n.callback, endedType r.loops, r.nest, .none⟩ : Event)
      rw [← stands.nest]
      rcases r.loops with _ | ⟨_ | _, outer⟩ <;> rfl
  | _ =>
      rw [looks] at told
      exact absurd told List.not_mem_nil

/-- No loop runs over a container that has been closed. -/
theorem held_after (held : r.loops.length ≤ r.opened.length) : r.after.loops.length ≤ r.after.opened.length := by
  cases looks : r.look with
  | enter k =>
      simp only [Reader.after, looks, Look.loops, Look.opened, List.length_cons]
      omega
  | leave | lapse =>
      simp only [Reader.after, looks, Look.loops, Look.opened, List.length_tail]
      omega
  | _ =>
      simp only [Reader.after, looks, Look.loops, Look.opened]
      exact held

/-- The index goes with what is left. -/
theorem drop_width {width idx' : Nat} (stands : Stands r ctx) (index : idx' = ctx.idx + width) :
    ctx.input.drop idx' = r.rest.drop width := by
  rw [index, ← List.drop_drop, stands.left]

theorem Stands.scalar (stands : Stands r ctx) {ctx' : JsonCtx U A} (looks : r.look = l)
    (same : l.opened r.opened = r.opened ∧ l.loops r.loops = r.loops) (input : ctx'.input = ctx.input)
    (st : ctx'.st = l.state r.loops r.st) (nest : ctx'.nest = ctx.nest) (idx : ctx'.idx = ctx.idx + l.width) :
    Stands r.after ctx' where
  st := by rw [st, ← looks]; rfl
  left := by
    rw [input, drop_width stands idx, ← looks]
    rfl
  nest := by
    rw [nest, stands.nest, Reader.nest, Reader.nest, Reader.after, looks, same.1]
  held := held_after stands.held

theorem stands_after (stands : Stands r ctx) (goes : r.look.Goes) (stack : List U) (world : A) :
    Stands r.after (r.look.settled { r.look.ready r.loops ctx with stack := stack, world := world }) := by
  have passes := r.passes
  have held := stands.held
  have nest := stands.nest
  rw [Reader.nest] at nest
  cases looks : r.look with
  | finished | cut | reject =>
      rw [looks] at goes
      exact goes.elim
  | pass st => exact stands.scalar looks ⟨rfl, rfl⟩ rfl rfl rfl rfl
  | key body | string body =>
      refine stands.scalar looks ⟨rfl, rfl⟩ rfl rfl ?_ ?_
      · change ctx.nest + 1 - 1 = ctx.nest
        omega
      · change ctx.idx + 1 + body.length + 1 = ctx.idx + (body.length + 2)
        omega
  | number chars =>
      rw [looks] at passes
      rcases passes with ⟨c, cs, d, after, rfl, -⟩
      refine stands.scalar looks ⟨rfl, rfl⟩ rfl rfl ?_ ?_
      · change ctx.nest + 1 - 1 = ctx.nest
        omega
      · change ctx.idx + 1 + cs.length - 1 + 1 = ctx.idx + (cs.length + 1)
        omega
  | token chars =>
      rw [looks] at passes
      rcases passes with ⟨c, cs, d, after, rfl, all, ends, left⟩
      have faces : Faces ctx.input ctx.idx (c :: cs ++ d :: after) := Faces.of_left (stands.left.trans left)
      rcases tokenValue_seen faces .value with ⟨ty, v, made, -⟩
      have made' : Look.ready r.loops ctx (.token (c :: cs)) =
          { ctx.tokEnded (ctx.idx + cs.length) with ty := ty, v := v }.inward := congrArg JsonCtx.inward made
      rw [made']
      refine stands.scalar looks ⟨rfl, rfl⟩ rfl rfl ?_ ?_
      · change ctx.nest + 1 - 1 = ctx.nest
        omega
      · rfl
  | enter k =>
      refine ⟨?_, ?_, ?_, held_after held⟩
      · rw [Reader.after, looks]
        rfl
      · change ctx.input.drop (ctx.idx + 1) = _
        rw [drop_width stands rfl, Reader.after, looks]
        rfl
      · change ctx.nest + 1 = _
        rw [Reader.nest, Reader.after, looks]
        change _ = ((k :: r.opened).length : Int) - 1
        rw [List.length_cons]
        omega
  | leave =>
      rw [looks] at passes
      rcases passes with ⟨k, outer, cs, loops, -⟩
      refine ⟨?_, ?_, ?_, held_after held⟩
      · change endedState r.loops ctx.st = _
        rw [Reader.after, looks, stands.st]
        rfl
      · change ctx.input.drop (ctx.idx + 1) = _
        rw [drop_width stands rfl, Reader.after, looks]
        rfl
      · change ctx.nest - 1 = _
        rw [Reader.nest, Reader.after, looks]
        change _ = ((r.opened.tail).length : Int) - 1
        rw [loops, List.length_cons] at held
        rw [List.length_tail]
        omega
  | lapse =>
      refine ⟨?_, ?_, ?_, held_after held⟩
      · change ctx.st = _
        rw [Reader.after, looks, stands.st]
        rfl
      · change ctx.input.drop (ctx.idx + 1) = _
        rw [drop_width stands rfl, Reader.after, looks]
        rfl
      · change ctx.nest = _
        rw [stands.nest, Reader.nest, Reader.nest, Reader.after, looks]
        rfl

theorem tokenValue_world (tmp : Nat) (ctx : JsonCtx U A) : (tokenValue tmp ctx).world = ctx.world := by
  simp only [tokenValue]
  split_ifs <;> rfl

theorem ready_world (l : Look) (loops : List Container) (ctx : JsonCtx U A) :
    (l.ready loops ctx).world = ctx.world := by
  cases l with
  | number chars => cases chars <;> rfl
  | token chars => exact tokenValue_world _ _
  | _ => rfl

theorem settled_world (l : Look) (ctx : JsonCtx U A) : (l.settled ctx).world = ctx.world := by
  cases l <;> rfl

theorem after_shorter (goes : r.look.Goes) : r.after.rest.length < r.rest.length := by
  have wide : 0 < r.look.width := by
    have passes := r.passes
    cases looks : r.look with
    | number chars | token chars =>
        rw [looks] at passes
        rcases passes with ⟨c, cs, d, after, rfl, -⟩
        exact Nat.succ_pos _
    | _ => exact Nat.succ_pos _
  have more : 0 < r.rest.length := by
    cases rest : r.rest with
    | nil =>
        rw [Reader.look, rest] at goes
        exact goes.elim
    | cons c cs => exact Nat.succ_pos _
  change (r.rest.drop r.look.width).length < r.rest.length
  rw [List.length_drop]
  omega

end MnCommon.JsonParser
