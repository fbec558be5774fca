import MnCommon.JsonParser.Events

/-! Texts that are read to their end. -/

namespace MnCommon.JsonParser

open Grammars (Json Phrase Lexicon Derives IsDigit IsLetter IsWord Closed)

variable {U A : Type} {handlers : JsonHandlers U A} {R : A → List Event → Prop} {ctx ctx' : JsonCtx U A}
  {k : JsonCallback} {u : U} {events : List Event} {slot : Slot U A} {obj array : Parser U A}
  {body chars cs rest ws ws₁ ws₂ key seg : List UInt8} {c m : UInt8} {fuel : Nat} {v : Json}
  {first : Opening}

/-- Within a container, at what is left of the text. -/
structure At (ctx ctx' : JsonCtx U A) (rest : List UInt8) : Prop where
  input : ctx'.input = ctx.input
  stack : ctx'.stack = ctx.stack
  nest : ctx'.nest = ctx.nest
  faces : Faces ctx'.input ctx'.idx rest

theorem At.trans {ctx₁ ctx₂ : JsonCtx U A} (first : At ctx ctx₁ ws) (second : At ctx₁ ctx₂ rest) : At ctx ctx₂ rest :=
  ⟨second.input.trans first.input, second.stack.trans first.stack, second.nest.trans first.nest, second.faces⟩

theorem At.moved {ctx₁ ctx₂ : JsonCtx U A} (first : At ctx ctx₁ ws) (second : Moved ctx₁ ctx₂ rest) :
    Moved ctx ctx₂ rest :=
  ⟨second.input.trans first.input, second.stack.trans first.stack, second.faces⟩

/-- A loop passes over characters that change nothing. -/
theorem loop_skips {run : Nat → Parser U A} {body : Nat → Body U A} {P : UInt8 → Prop} {Q : JsonState → Prop}
    (turn : ∀ fuel ctx, run (fuel + 1) ctx = iterate (body fuel) (run fuel) ctx)
    (skips : ∀ fuel c ctx, P c → Q ctx.st → body fuel c ctx = .ok (.next ctx)) (nonzero : ∀ c, P c → c ≠ 0)
    (all : ∀ c ∈ ws, P c) (st : Q ctx.st) (faces : Faces ctx.input ctx.idx (ws ++ rest))
    (enough : (ws ++ rest).length < fuel) :
    ∃ fuel', rest.length < fuel' ∧ run fuel ctx = run fuel' { ctx with idx := ctx.idx + ws.length } := by
  induction ws generalizing ctx fuel with
  | nil => exact ⟨fuel, enough, rfl⟩
  | cons c ws ih =>
      cases fuel with
      | zero => exact absurd enough (Nat.not_lt_zero _)
      | succ fuel =>
          rcases List.forall_mem_cons.mp all with ⟨here, others⟩
          rw [List.cons_append, List.length_cons] at enough
          rcases @ih { ctx with idx := ctx.idx + 1 } fuel others st faces.step (by omega) with ⟨fuel', left, same⟩
          refine ⟨fuel', left, ?_⟩
          rw [turn, iterate_next faces (nonzero c here) (skips fuel c ctx here st), same, List.length_cons,
            Nat.add_comm ws.length, ← Nat.add_assoc]

theorem obj_spaces (spaces : loose.Spaces ws) (st : ctx.st.inObject = true)
    (faces : Faces ctx.input ctx.idx (ws ++ rest)) (enough : (ws ++ rest).length < fuel) :
    ∃ fuel', rest.length < fuel' ∧
      jsonParseObj handlers fuel ctx = jsonParseObj handlers fuel' { ctx with idx := ctx.idx + ws.length } := by
  refine loop_skips (P := loose.space) (Q := fun st => st.inObject = true) (fun _ _ => rfl) ?_ ?_ spaces st faces enough
  · exact fun fuel c ctx space st => objBody_space space st
  · rintro c (rfl | rfl | rfl) <;> decide

theorem array_spaces (spaces : loose.Spaces ws) (st : ctx.st.inArray = true)
    (faces : Faces ctx.input ctx.idx (ws ++ rest)) (enough : (ws ++ rest).length < fuel) :
    ∃ fuel', rest.length < fuel' ∧
      jsonParseArray handlers fuel ctx = jsonParseArray handlers fuel' { ctx with idx := ctx.idx + ws.length } := by
  refine loop_skips (P := loose.space) (Q := fun st => st.inArray = true) (fun _ _ => rfl) ?_ ?_ spaces st faces enough
  · exact fun fuel c ctx space st => arrayBody_space space st
  · rintro c (rfl | rfl | rfl) <;> decide

theorem key_served (follows : Follows handlers R) (st : ctx.st = .ostart ∨ ctx.st = .eNext) (closed : Closed key)
    (faces : Faces ctx.input ctx.idx (34 :: (key ++ 34 :: rest))) (known : R ctx.world events) :
    ∃ ctx', objBody handlers obj array 34 ctx = .ok (.next ctx') ∧ Moved ctx ctx' rest ∧ ctx'.st = .keyOut ∧
      ctx'.nest = ctx.nest ∧ R ctx'.world (events ++ [⟨.key, .string, ctx.nest + 1, .text key⟩]) := by
  have scanned := jsonParseStr_closed faces closed
  rcases follows.text .key handlers.key.udata (ctx.strFlags key) .keyOut faces known with ⟨world, call, kept⟩
  have parsed : jsonParseKey handlers ctx =
      .ok { ctx.strMarked (ctx.strFlags key) .keyOut key.length with world := world } := by
    rw [jsonParseKey]
    change (jsonParseStr ctx.strBegun >>= _) = _
    rw [scanned]
    exact call
  refine ⟨{ ctx.strMarked (ctx.strFlags key) .keyOut key.length with world := world }, ?_,
    ⟨rfl, rfl, faces.step.advance.step⟩, rfl, rfl, kept⟩
  rcases st with st | st
  · simp only [objBody, st, if_neg (show ¬ (34 : UInt8) = 125 by decide), if_true, parsed]
    rfl
  · simp only [objBody, st, if_true, parsed]
    rfl

theorem closeObject_served (follows : Follows handlers R) (faces : Faces ctx.input ctx.idx (125 :: rest))
    (st : ctx.st = .ostart ∨ ctx.st.isOut = true) (known : R ctx.world events) :
    ∃ ctx', objBody handlers obj array 125 ctx = .ok (.leave ctx') ∧ Moved ctx ctx' rest ∧ ctx'.st = .ostop ∧
      ctx'.nest = ctx.nest - 1 ∧ R ctx'.world (events ++ [⟨.ostop, .object, ctx.nest, .none⟩]) := by
  rcases follows.called .ostop handlers.ostop.udata { ctx with st := .ostop, ty := .object } events known with
    ⟨world, call, kept⟩
  have closed : closeObject handlers ctx =
      .ok { ctx with st := .ostop, ty := .object, world := world, nest := ctx.nest - 1 } := by
    rw [closeObject]
    change (({ handlers.get .ostop with udata := handlers.ostop.udata }).call _ >>= _) = _
    rw [call]
    rfl
  refine ⟨{ ctx with st := .ostop, ty := .object, world := world, nest := ctx.nest - 1 }, ?_,
    ⟨rfl, rfl, faces.step⟩, rfl, rfl, kept⟩
  rcases st with st | out
  · simp only [objBody, st, if_true, closed]
    rfl
  · cases shape : ctx.st <;> rw [shape] at out <;>
      first
        | exact absurd out (by decide)
        | simp only [objBody, shape, JsonState.isOut, if_true, if_neg (show ¬ (125 : UInt8) = 44 by decide), closed]
          rfl

theorem closeArray_served (follows : Follows handlers R) (faces : Faces ctx.input ctx.idx (93 :: rest))
    (st : ctx.st.inArray = true) (known : R ctx.world events) :
    ∃ ctx', arrayBody handlers obj array 93 ctx = .ok (.leave ctx') ∧ Moved ctx ctx' rest ∧ ctx'.st = .astop ∧
      ctx'.nest = ctx.nest - 1 ∧ R ctx'.world (events ++ [⟨.astop, .array, ctx.nest, .none⟩]) := by
  rcases follows.called .astop handlers.astop.udata { ctx with st := .astop, ty := .array } events known with
    ⟨world, call, kept⟩
  have closed (n : Nat) : closeArray handlers n ctx =
      .ok { ctx with st := .astop, ty := .array, world := world, nest := ctx.nest - 1 } := by
    rw [closeArray]
    change (labelled _ (({ handlers.get .astop with udata := handlers.astop.udata }).call _) >>= _) = _
    rw [call]
    rfl
  refine ⟨{ ctx with st := .astop, ty := .array, world := world, nest := ctx.nest - 1 }, ?_,
    ⟨rfl, rfl, faces.step⟩, rfl, rfl, kept⟩
  cases shape : ctx.st <;> rw [shape] at st <;>
    first
      | exact absurd st (by decide)
      | simp only [arrayBody, shape, JsonState.isOut, if_true, if_neg (show ¬ (93 : UInt8) = 44 by decide), closed]
        rfl

/-- What the code does where it expects a phrase. -/
def Served (handlers : JsonHandlers U A) (R : A → List Event → Prop) : Phrase → List UInt8 → Prop
  | .value v, seg => ∀ k u slot fuel ctx rest events, slot.handler = { handlers.get k with udata := u } →
      Faces ctx.input ctx.idx (seg ++ rest) → (Phrase.Open (.value v) → Ends rest) → (seg ++ rest).length ≤ fuel →
      R ctx.world events → ∃ c s first ctx', seg = c :: s ∧ opening c = some first ∧
        jsonParseValue handlers slot (jsonParseObj handlers fuel) (jsonParseArray handlers fuel) ctx first = .ok ctx' ∧
        Moved ctx ctx' rest ∧ ctx'.st.isOut = true ∧ ctx'.nest = ctx.nest ∧
        R ctx'.world (events ++ valueEvents k (ctx.nest + 1) v)
  | .members ms, seg => ∀ fuel ctx rest events, (ctx.st = .ostart ∨ ctx.st = .eNext) →
      Faces ctx.input ctx.idx (seg ++ rest) → (seg ++ rest).length < fuel → R ctx.world events →
      ∃ ctx', jsonParseObj handlers fuel ctx = .ok ctx' ∧ Moved ctx ctx' rest ∧ ctx'.st = .ostop ∧
        ctx'.nest = ctx.nest - 1 ∧
        R ctx'.world (events ++ (memberEvents (ctx.nest + 1) ms ++ [⟨.ostop, .object, ctx.nest, .none⟩]))
  | .items vs _, seg => ∀ fuel ctx rest events, (ctx.st = .astart ∨ ctx.st = .eNext) →
      Faces ctx.input ctx.idx (seg ++ rest) → (seg ++ rest).length < fuel → R ctx.world events →
      ∃ ctx', jsonParseArray handlers fuel ctx = .ok ctx' ∧ Moved ctx ctx' rest ∧ ctx'.st = .astop ∧
        ctx'.nest = ctx.nest - 1 ∧
        R ctx'.world (events ++ (itemEvents (ctx.nest + 1) vs ++ [⟨.astop, .array, ctx.nest, .none⟩]))

theorem ends_of_spaces (spaces : loose.Spaces ws) (word : ¬ IsWord m) : Ends (ws ++ m :: rest) := by
  cases ws with
  | nil => exact ⟨m, rest, rfl, word⟩
  | cons c ws =>
      refine ⟨c, ws ++ m :: rest, rfl, ?_⟩
      rcases spaces c List.mem_cons_self with rfl | rfl | rfl <;> decide

theorem opening_nonzero (opens : opening c = some first) : c ≠ 0 := by
  rintro rfl
  have none : opening 0 = none := by decide
  rw [none] at opens
  cases opens

/-- A value in an object, and the space behind it. -/
theorem member_value (value : Served handlers R (.value v) seg) (st : ctx.st = .eValue) (spaces : loose.Spaces ws)
    (word : ¬ IsWord m) (faces : Faces ctx.input ctx.idx (seg ++ (ws ++ m :: rest)))
    (enough : (seg ++ (ws ++ m :: rest)).length < fuel) (known : R ctx.world events) :
    ∃ fuel' ctx', (m :: rest).length < fuel' ∧ jsonParseObj handlers fuel ctx = jsonParseObj handlers fuel' ctx' ∧
      At ctx ctx' (m :: rest) ∧ ctx'.st.isOut = true ∧
      R ctx'.world (events ++ valueEvents .value (ctx.nest + 1) v) := by
  cases fuel with
  | zero => exact absurd enough (Nat.not_lt_zero _)
  | succ fuel =>
      rcases value .value handlers.value.udata (memberSlot handlers) fuel ctx _ events rfl faces
        (fun _ => ends_of_spaces spaces word) (by omega) known with
        ⟨c, s, first, ctx', rfl, opens, parsed, moved, out, nest, kept⟩
      have turn : objBody handlers (jsonParseObj handlers fuel) (jsonParseArray handlers fuel) c ctx =
          .ok (.next ctx') := by
        simp only [objBody, st, opens, parsed]
        rfl
      have shorter : (ws ++ m :: rest).length < fuel := by
        rw [List.length_append, List.length_cons] at enough
        omega
      rcases @obj_spaces U A handlers { ctx' with idx := ctx'.idx + 1 } (m :: rest) ws fuel spaces
        (by simp [JsonState.inObject, out]) moved.faces shorter with ⟨fuel', left, same⟩
      refine ⟨fuel', { ctx' with idx := ctx'.idx + 1 + ws.length }, left, ?_,
        ⟨moved.input, moved.stack, nest, moved.faces.advance⟩, out, kept⟩
      rw [jsonParseObj, iterate_next faces (opening_nonzero opens) turn, same]

/-- The same in an array. -/
theorem item_value (value : Served handlers R (.value v) seg) (st : ctx.st = .astart ∨ ctx.st = .eNext)
    (spaces : loose.Spaces ws) (word : ¬ IsWord m) (faces : Faces ctx.input ctx.idx (seg ++ (ws ++ m :: rest)))
    (enough : (seg ++ (ws ++ m :: rest)).length < fuel) (known : R ctx.world events) :
    ∃ fuel' ctx', (m :: rest).length < fuel' ∧ jsonParseArray handlers fuel ctx = jsonParseArray handlers fuel' ctx' ∧
      At ctx ctx' (m :: rest) ∧ ctx'.st.isOut = true ∧
      R ctx'.world (events ++ valueEvents .item (ctx.nest + 1) v) := by
  cases fuel with
  | zero => exact absurd enough (Nat.not_lt_zero _)
  | succ fuel =>
      rcases value .item handlers.item.udata (itemSlot handlers) fuel ctx _ events rfl faces
        (fun _ => ends_of_spaces spaces word) (by omega) known with
        ⟨c, s, first, ctx', rfl, opens, parsed, moved, out, nest, kept⟩
      have other : c ≠ 93 := by
        rintro rfl
        have none : opening 93 = none := by decide
        rw [none] at opens
        cases opens
      have turn : arrayBody handlers (jsonParseObj handlers fuel) (jsonParseArray handlers fuel) c ctx =
          .ok (.next ctx') := by
        rcases st with st | st
        all_goals
          simp only [arrayBody, st, if_neg other, opens, parsed]
          rfl
      have shorter : (ws ++ m :: rest).length < fuel := by
        rw [List.length_append, List.length_cons] at enough
        omega
      rcases @array_spaces U A handlers { ctx' with idx := ctx'.idx + 1 } (m :: rest) ws fuel spaces
        (by simp [JsonState.inArray, out]) moved.faces shorter with ⟨fuel', left, same⟩
      refine ⟨fuel', { ctx' with idx := ctx'.idx + 1 + ws.length }, left, ?_,
        ⟨moved.input, moved.stack, nest, moved.faces.advance⟩, out, kept⟩
      rw [jsonParseArray, iterate_next faces (opening_nonzero opens) turn, same]

/-- A member, and the space behind it. -/
theorem member_served (follows : Follows handlers R) (value : Served handlers R (.value v) seg)
    (st : ctx.st = .ostart ∨ ctx.st = .eNext) (closed : Closed key) (spaces₁ : loose.Spaces ws₁)
    (spaces₂ : loose.Spaces ws₂) (spaces : loose.Spaces ws) (word : ¬ IsWord m)
    (faces : Faces ctx.input ctx.idx (34 :: (key ++ 34 :: (ws₁ ++ 58 :: (ws₂ ++ (seg ++ (ws ++ m :: rest)))))))
    (enough : (34 :: (key ++ 34 :: (ws₁ ++ 58 :: (ws₂ ++ (seg ++ (ws ++ m :: rest)))))).length < fuel)
    (known : R ctx.world events) :
    ∃ fuel' ctx', (m :: rest).length < fuel' ∧ jsonParseObj handlers fuel ctx = jsonParseObj handlers fuel' ctx' ∧
      At ctx ctx' (m :: rest) ∧ ctx'.st.isOut = true ∧
      R ctx'.world (events ++ ⟨.key, .string, ctx.nest + 1, .text key⟩ :: valueEvents .value (ctx.nest + 1) v) := by
  cases fuel with
  | zero => exact absurd enough (Nat.not_lt_zero _)
  | succ fuel =>
      -- the key
      rcases @key_served U A handlers R ctx events (jsonParseObj handlers fuel)
        (jsonParseArray handlers fuel) _ key follows st
        closed faces known with ⟨ctx₁, turn₁, moved₁, st₁, nest₁, known₁⟩
      have shorter : (ws₁ ++ 58 :: (ws₂ ++ (seg ++ (ws ++ m :: rest)))).length < fuel := by
        simp only [List.length_append, List.length_cons] at enough ⊢
        omega
      rcases @obj_spaces U A handlers { ctx₁ with idx := ctx₁.idx + 1 } _ ws₁ fuel spaces₁
        (by simp [JsonState.inObject, st₁]) moved₁.faces shorter with ⟨fuel₂, left₂, same₂⟩
      cases fuel₂ with
      | zero => exact absurd left₂ (Nat.not_lt_zero _)
      | succ fuel₂ =>
          -- the colon
          let ctx₂ : JsonCtx U A := { ctx₁ with idx := ctx₁.idx + 1 + ws₁.length }
          have faces₂ : Faces ctx₂.input ctx₂.idx (58 :: (ws₂ ++ (seg ++ (ws ++ m :: rest)))) := moved₁.faces.advance
          have turn₂ : objBody handlers (jsonParseObj handlers fuel₂) (jsonParseArray handlers fuel₂) 58 ctx₂ =
              .ok (.next { ctx₂ with st := .eValue }) := by
            simp only [objBody, ctx₂, st₁, if_true]
          rcases @obj_spaces U A handlers { ctx₂ with st := .eValue, idx := ctx₂.idx + 1 } _ ws₂ fuel₂ spaces₂ rfl
            faces₂.step (Nat.lt_of_succ_lt_succ left₂) with ⟨fuel₃, left₃, same₃⟩
          -- the value
          let ctx₃ : JsonCtx U A := { ctx₂ with st := .eValue, idx := ctx₂.idx + 1 + ws₂.length }
          have known₃ : R ctx₃.world (events ++ [⟨.key, .string, ctx.nest + 1, .text key⟩]) := known₁
          have faces₃ : Faces ctx₃.input ctx₃.idx (seg ++ (ws ++ m :: rest)) := faces₂.step.advance
          rcases member_value value rfl spaces word faces₃ left₃ known₃ with
            ⟨fuel', ctx', left, same, reached, out, kept⟩
          refine ⟨fuel', ctx', left, ?_, ?_, out, ?_⟩
          · rw [jsonParseObj, iterate_next faces (by decide) turn₁, same₂, jsonParseObj,
              iterate_next faces₂ (by decide) turn₂, same₃]
            exact same
          · exact ⟨reached.input.trans moved₁.input, reached.stack.trans moved₁.stack, reached.nest.trans nest₁,
              reached.faces⟩
          · have nest : ctx₃.nest = ctx.nest := nest₁
            rwa [nest, List.append_assoc, List.singleton_append] at kept

theorem members_served_last (follows : Follows handlers R) (value : Served handlers R (.value v) seg)
    (closed : Closed key)
    (spaces₁ : loose.Spaces ws₁) (spaces₂ : loose.Spaces ws₂) (spaces : loose.Spaces ws) :
    Served handlers R (.members [(key, v)]) (34 :: (key ++ 34 :: (ws₁ ++ 58 :: (ws₂ ++ (seg ++ (ws ++ [125])))))) := by
  intro fuel ctx rest events st faces enough known
  simp only [List.cons_append, List.append_assoc, List.nil_append] at faces enough
  rcases member_served follows value st closed spaces₁ spaces₂ spaces (by decide) faces enough known with
    ⟨fuel', ctx', left, same, reached, out, known'⟩
  cases fuel' with
  | zero => exact absurd left (Nat.not_lt_zero _)
  | succ fuel' =>
      rcases @closeObject_served U A handlers R ctx' _ (jsonParseObj handlers fuel')
        (jsonParseArray handlers fuel') rest
        follows reached.faces (.inr out) known' with ⟨final, turn, moved, st', nest, kept⟩
      refine ⟨final, ?_, reached.moved moved, st', ?_, ?_⟩
      · rw [same, jsonParseObj]
        exact iterate_leave reached.faces (by decide) turn
      · rw [nest, reached.nest]
      · rw [reached.nest] at kept
        simpa [memberEvents] using kept

theorem objBody_comma (out : ctx.st.isOut = true) :
    objBody handlers obj array 44 ctx = .ok (.next { ctx with st := .eNext }) := by
  cases shape : ctx.st <;> rw [shape] at out <;>
    first
      | exact absurd out (by decide)
      | simp only [objBody, shape, JsonState.isOut, if_true]

theorem arrayBody_comma (out : ctx.st.isOut = true) :
    arrayBody handlers obj array 44 ctx = .ok (.next { ctx with st := .eNext }) := by
  cases shape : ctx.st <;> rw [shape] at out <;>
    first
      | exact absurd out (by decide)
      | simp only [arrayBody, shape, JsonState.isOut, if_true]

/-- The comma behind a member, and the space after it. -/
theorem obj_comma (out : ctx.st.isOut = true) (spaces : loose.Spaces ws)
    (faces : Faces ctx.input ctx.idx (44 :: (ws ++ rest))) (enough : (44 :: (ws ++ rest)).length < fuel) :
    ∃ fuel' ctx', rest.length < fuel' ∧ jsonParseObj handlers fuel ctx = jsonParseObj handlers fuel' ctx' ∧
      At ctx ctx' rest ∧ ctx'.st = .eNext ∧ ctx'.world = ctx.world := by
  cases fuel with
  | zero => exact absurd enough (Nat.not_lt_zero _)
  | succ fuel =>
      rcases @obj_spaces U A handlers { ctx with st := .eNext, idx := ctx.idx + 1 } _ ws fuel spaces rfl faces.step
        (Nat.lt_of_succ_lt_succ enough) with ⟨fuel', left, same⟩
      refine ⟨fuel', { ctx with st := .eNext, idx := ctx.idx + 1 + ws.length }, left, ?_,
        ⟨rfl, rfl, rfl, faces.step.advance⟩, rfl, rfl⟩
      rw [jsonParseObj, iterate_next faces (by decide) (objBody_comma out), same]

theorem array_comma (out : ctx.st.isOut = true) (spaces : loose.Spaces ws)
    (faces : Faces ctx.input ctx.idx (44 :: (ws ++ rest))) (enough : (44 :: (ws ++ rest)).length < fuel) :
    ∃ fuel' ctx', rest.length < fuel' ∧ jsonParseArray handlers fuel ctx = jsonParseArray handlers fuel' ctx' ∧
      At ctx ctx' rest ∧ ctx'.st = .eNext ∧ ctx'.world = ctx.world := by
  cases fuel with
  | zero => exact absurd enough (Nat.not_lt_zero _)
  | succ fuel =>
      rcases @array_spaces U A handlers { ctx with st := .eNext, idx := ctx.idx + 1 } _ ws fuel spaces rfl faces.step
        (Nat.lt_of_succ_lt_succ enough) with ⟨fuel', left, same⟩
      refine ⟨fuel', { ctx with st := .eNext, idx := ctx.idx + 1 + ws.length }, left, ?_,
        ⟨rfl, rfl, rfl, faces.step.advance⟩, rfl, rfl⟩
      rw [jsonParseArray, iterate_next faces (by decide) (arrayBody_comma out), same]

/-- An item, the comma behind it, and the space behind that. -/
theorem item_comma {ws' : List UInt8} (value : Served handlers R (.value v) seg)
    (st : ctx.st = .astart ∨ ctx.st = .eNext) (spaces : loose.Spaces ws) (spaces' : loose.Spaces ws')
    (faces : Faces ctx.input ctx.idx (seg ++ (ws ++ 44 :: (ws' ++ rest))))
    (enough : (seg ++ (ws ++ 44 :: (ws' ++ rest))).length < fuel) (known : R ctx.world events) :
    ∃ fuel' ctx', rest.length < fuel' ∧ jsonParseArray handlers fuel ctx = jsonParseArray handlers fuel' ctx' ∧
      At ctx ctx' rest ∧ ctx'.st = .eNext ∧ R ctx'.world (events ++ valueEvents .item (ctx.nest + 1) v) := by
  rcases item_value value st spaces (by decide) faces enough known with
    ⟨fuel₁, ctx₁, left₁, same₁, reached₁, out, known₁⟩
  rcases @array_comma U A handlers ctx₁ _ ws' fuel₁ out spaces' reached₁.faces left₁ with
    ⟨fuel₂, ctx₂, left₂, same₂, reached₂, st₂, world₂⟩
  rw [← world₂] at known₁
  exact ⟨fuel₂, ctx₂, left₂, same₁.trans same₂, reached₁.trans reached₂, st₂, known₁⟩

theorem members_served_more {ws' more : List UInt8} {ms : List (List UInt8 × Json)} (follows : Follows handlers R)
    (value : Served handlers R (.value v) seg) (others : Served handlers R (.members ms) more) (closed : Closed key)
    (spaces₁ : loose.Spaces ws₁) (spaces₂ : loose.Spaces ws₂) (spaces : loose.Spaces ws) (spaces' : loose.Spaces ws') :
    Served handlers R (.members ((key, v) :: ms))
      (34 :: (key ++ 34 :: (ws₁ ++ 58 :: (ws₂ ++ (seg ++ (ws ++ 44 :: (ws' ++ more))))))) := by
  intro fuel ctx rest events st faces enough known
  simp only [List.cons_append, List.append_assoc] at faces enough
  rcases member_served follows value st closed spaces₁ spaces₂ spaces (by decide) faces enough known with
    ⟨fuel₁, ctx₁, left₁, same₁, reached₁, out, known₁⟩
  rcases @obj_comma U A handlers ctx₁ _ ws' fuel₁ out spaces' reached₁.faces left₁ with
    ⟨fuel₂, ctx₂, left₂, same₂, reached₂, st₂, world₂⟩
  rw [← world₂] at known₁
  have reached := reached₁.trans reached₂
  rcases others fuel₂ ctx₂ rest _ (.inr st₂) reached.faces left₂ known₁ with ⟨final, run, moved, st', nest, kept⟩
  refine ⟨final, ?_, reached.moved moved, st', ?_, ?_⟩
  · rw [same₁, same₂, run]
  · rw [nest, reached.nest]
  · rw [reached.nest] at kept
    simpa [memberEvents] using kept

theorem items_served_last (follows : Follows handlers R) (value : Served handlers R (.value v) seg)
    (spaces : loose.Spaces ws) : Served handlers R (.items [v] false) (seg ++ (ws ++ [93])) := by
  intro fuel ctx rest events st faces enough known
  simp only [List.append_assoc, List.cons_append, List.nil_append] at faces enough
  rcases item_value value st spaces (by decide) faces enough known with ⟨fuel', ctx', left, same, reached, out, known'⟩
  cases fuel' with
  | zero => exact absurd left (Nat.not_lt_zero _)
  | succ fuel' =>
      rcases @closeArray_served U A handlers R ctx' _ (jsonParseObj handlers fuel') (jsonParseArray handlers fuel') rest
        follows reached.faces (by simp [JsonState.inArray, out]) known' with ⟨final, turn, moved, st', nest, kept⟩
      refine ⟨final, ?_, reached.moved moved, st', ?_, ?_⟩
      · rw [same, jsonParseArray]
        exact iterate_leave reached.faces (by decide) turn
      · rw [nest, reached.nest]
      · rw [reached.nest] at kept
        simpa [itemEvents] using kept

theorem items_served_comma {ws' : List UInt8} (follows : Follows handlers R) (value : Served handlers R (.value v) seg)
    (spaces : loose.Spaces ws) (spaces' : loose.Spaces ws') :
    Served handlers R (.items [v] true) (seg ++ (ws ++ 44 :: (ws' ++ [93]))) := by
  intro fuel ctx rest events st faces enough known
  simp only [List.append_assoc, List.cons_append, List.nil_append] at faces enough
  rcases item_comma value st spaces spaces' faces enough known with ⟨fuel', ctx', left, same, reached, next, known'⟩
  cases fuel' with
  | zero => exact absurd left (Nat.not_lt_zero _)
  | succ fuel' =>
      rcases @closeArray_served U A handlers R ctx' _ (jsonParseObj handlers fuel') (jsonParseArray handlers fuel') rest
        follows reached.faces (by rw [next]; rfl) known' with ⟨final, turn, moved, st', nest, kept⟩
      refine ⟨final, ?_, reached.moved moved, st', ?_, ?_⟩
      · rw [same, jsonParseArray]
        exact iterate_leave reached.faces (by decide) turn
      · rw [nest, reached.nest]
      · rw [reached.nest] at kept
        simpa [itemEvents] using kept

theorem items_served_more {ws' more : List UInt8} {vs : List Json} {comma : Bool}
    (value : Served handlers R (.value v) seg)
    (others : Served handlers R (.items vs comma) more) (spaces : loose.Spaces ws) (spaces' : loose.Spaces ws') :
    Served handlers R (.items (v :: vs) comma) (seg ++ (ws ++ 44 :: (ws' ++ more))) := by
  intro fuel ctx rest events st faces enough known
  simp only [List.append_assoc, List.cons_append] at faces enough
  rcases item_comma value st spaces spaces' faces enough known with ⟨fuel', ctx', left, same, reached, next, known'⟩
  rcases others fuel' ctx' rest _ (.inr next) reached.faces left known' with ⟨final, run, moved, st', nest, kept⟩
  refine ⟨final, ?_, reached.moved moved, st', ?_, ?_⟩
  · rw [same, run]
  · rw [nest, reached.nest]
  · rw [reached.nest] at kept
    simpa [itemEvents] using kept

theorem openObject_served {inner : JsonHandler U A} (label : Nat → Failure → Failure) (follows : Follows handlers R)
    (told : inner = { handlers.get k with udata := u }) (faces : Faces ctx.input ctx.idx (c :: rest))
    (known : R ctx.world events) :
    ∃ ctx', openObject handlers inner label obj ctx = obj ctx' ∧ ctx'.input = ctx.input ∧ ctx'.stack = ctx.stack ∧
      Faces ctx'.input ctx'.idx rest ∧ ctx'.st = .ostart ∧ ctx'.nest = ctx.nest + 1 ∧
      R ctx'.world (events ++ [⟨.ostart, .object, ctx.nest + 1, .none⟩, ⟨k, .object, ctx.nest + 1, .none⟩]) := by
  let opened : JsonCtx U A := { ctx with st := .ostart, ty := .object, nest := ctx.nest + 1 }
  rcases follows.called .ostart handlers.ostart.udata opened events known with ⟨world, call, known'⟩
  rcases follows.called k u { opened with world := world } _ known' with ⟨world', call', known''⟩
  refine ⟨{ opened with world := world', idx := ctx.idx + 1 }, ?_, rfl, rfl, faces.step, rfl, rfl, ?_⟩
  · rw [openObject, told]
    change (labelled _ (({ handlers.get .ostart with udata := handlers.ostart.udata }).call opened) >>= _) = _
    rw [call]
    change (labelled _ (({ handlers.get k with udata := u }).call { opened with world := world }) >>= _) = _
    rw [call']
    rfl
  · rwa [List.append_assoc] at known''

theorem openArray_served {inner : JsonHandler U A} (label : Nat → Failure → Failure) (follows : Follows handlers R)
    (told : inner = { handlers.get k with udata := u }) (faces : Faces ctx.input ctx.idx (c :: rest))
    (known : R ctx.world events) :
    ∃ ctx', openArray handlers inner label array ctx = labelled (label 4) (array ctx') ∧ ctx'.input = ctx.input ∧
      ctx'.stack = ctx.stack ∧ Faces ctx'.input ctx'.idx rest ∧ ctx'.st = .astart ∧ ctx'.nest = ctx.nest + 1 ∧
      R ctx'.world (events ++ [⟨.astart, .array, ctx.nest + 1, .none⟩, ⟨k, .array, ctx.nest + 1, .none⟩]) := by
  let opened : JsonCtx U A := { ctx with st := .astart, ty := .array, nest := ctx.nest + 1 }
  rcases follows.called .astart handlers.astart.udata opened events known with ⟨world, call, known'⟩
  rcases follows.called k u { opened with world := world } _ known' with ⟨world', call', known''⟩
  refine ⟨{ opened with world := world', idx := ctx.idx + 1 }, ?_, rfl, rfl, faces.step, rfl, rfl, ?_⟩
  · rw [openArray, told]
    change (labelled _ (({ handlers.get .astart with udata := handlers.astart.udata }).call opened) >>= _) = _
    rw [call]
    change (labelled _ (({ handlers.get k with udata := u }).call { opened with world := world }) >>= _) = _
    rw [call']
    rfl
  · rwa [List.append_assoc] at known''

/-- Behind the brace or the bracket that opens a container. -/
theorem object_empty_inside (follows : Follows handlers R) (spaces : loose.Spaces ws) (st : ctx.st = .ostart)
    (faces : Faces ctx.input ctx.idx (ws ++ 125 :: rest)) (enough : (ws ++ 125 :: rest).length < fuel)
    (known : R ctx.world events) :
    ∃ ctx', jsonParseObj handlers fuel ctx = .ok ctx' ∧ Moved ctx ctx' rest ∧ ctx'.st = .ostop ∧
      ctx'.nest = ctx.nest - 1 ∧ R ctx'.world (events ++ [⟨.ostop, .object, ctx.nest, .none⟩]) := by
  rcases @obj_spaces U A handlers ctx _ ws fuel spaces (by rw [st]; rfl) faces enough with ⟨fuel', left, same⟩
  cases fuel' with
  | zero => exact absurd left (Nat.not_lt_zero _)
  | succ fuel' =>
      let ctx₁ : JsonCtx U A := { ctx with idx := ctx.idx + ws.length }
      have faces₁ : Faces ctx₁.input ctx₁.idx (125 :: rest) := faces.advance
      rcases @closeObject_served U A handlers R ctx₁ _ (jsonParseObj handlers fuel')
        (jsonParseArray handlers fuel') rest
        follows faces₁ (.inl st) known with ⟨final, turn, moved, others⟩
      refine ⟨final, ?_, ⟨moved.input, moved.stack, moved.faces⟩, others⟩
      rw [same, jsonParseObj]
      exact iterate_leave faces₁ (by decide) turn

theorem array_empty_inside (follows : Follows handlers R) (spaces : loose.Spaces ws) (st : ctx.st = .astart)
    (faces : Faces ctx.input ctx.idx (ws ++ 93 :: rest)) (enough : (ws ++ 93 :: rest).length < fuel)
    (known : R ctx.world events) :
    ∃ ctx', jsonParseArray handlers fuel ctx = .ok ctx' ∧ Moved ctx ctx' rest ∧ ctx'.st = .astop ∧
      ctx'.nest = ctx.nest - 1 ∧ R ctx'.world (events ++ [⟨.astop, .array, ctx.nest, .none⟩]) := by
  rcases @array_spaces U A handlers ctx _ ws fuel spaces (by rw [st]; rfl) faces enough with ⟨fuel', left, same⟩
  cases fuel' with
  | zero => exact absurd left (Nat.not_lt_zero _)
  | succ fuel' =>
      let ctx₁ : JsonCtx U A := { ctx with idx := ctx.idx + ws.length }
      have faces₁ : Faces ctx₁.input ctx₁.idx (93 :: rest) := faces.advance
      have inArray : ctx₁.st.inArray = true := by
        change ctx.st.inArray = true
        rw [st]
        rfl
      rcases @closeArray_served U A handlers R ctx₁ _ (jsonParseObj handlers fuel') (jsonParseArray handlers fuel') rest
        follows faces₁ inArray known with ⟨final, turn, moved, others⟩
      refine ⟨final, ?_, ⟨moved.input, moved.stack, moved.faces⟩, others⟩
      rw [same, jsonParseArray]
      exact iterate_leave faces₁ (by decide) turn

theorem object_served {ms : List (List UInt8 × Json)} (follows : Follows handlers R)
    (inside : ∀ fuel ctx rest events, ctx.st = .ostart → Faces ctx.input ctx.idx (seg ++ rest) →
      (seg ++ rest).length < fuel → R ctx.world events →
      ∃ ctx', jsonParseObj handlers fuel ctx = .ok ctx' ∧ Moved ctx ctx' rest ∧ ctx'.st = .ostop ∧
        ctx'.nest = ctx.nest - 1 ∧
        R ctx'.world (events ++ (memberEvents (ctx.nest + 1) ms ++ [⟨.ostop, .object, ctx.nest, .none⟩]))) :
    Served handlers R (.value (.object ms)) (123 :: seg) := by
  intro k u slot fuel ctx rest events told faces _ enough known
  rcases @openObject_served U A handlers R ctx k u events
    (jsonParseObj handlers fuel) _ 123 _ slot.label follows told faces
    known with ⟨ctx₁, same, input, stack, faces₁, st₁, level, known₁⟩
  rcases inside fuel ctx₁ rest _ st₁ faces₁ (Nat.lt_of_succ_le enough) known₁ with ⟨final, run, moved, st', nest, kept⟩
  refine ⟨123, seg, .object, final, rfl, rfl, same.trans run, ⟨moved.input.trans input, moved.stack.trans stack,
    moved.faces⟩, ?_, ?_, ?_⟩
  · rw [st']
    rfl
  · rw [nest, level]
    omega
  · rw [level] at kept
    simpa [valueEvents] using kept

theorem array_served {vs : List Json} {comma : Bool} (follows : Follows handlers R)
    (inside : ∀ fuel ctx rest events, ctx.st = .astart → Faces ctx.input ctx.idx (seg ++ rest) →
      (seg ++ rest).length < fuel → R ctx.world events →
      ∃ ctx', jsonParseArray handlers fuel ctx = .ok ctx' ∧ Moved ctx ctx' rest ∧ ctx'.st = .astop ∧
        ctx'.nest = ctx.nest - 1 ∧
        R ctx'.world (events ++ (itemEvents (ctx.nest + 1) vs ++ [⟨.astop, .array, ctx.nest, .none⟩]))) :
    Served handlers R (.value (.array vs comma)) (91 :: seg) := by
  intro k u slot fuel ctx rest events told faces _ enough known
  rcases @openArray_served U A handlers R ctx k u events
    (jsonParseArray handlers fuel) _ 91 _ slot.label follows told faces
    known with ⟨ctx₁, same, input, stack, faces₁, st₁, level, known₁⟩
  rcases inside fuel ctx₁ rest _ st₁ faces₁ (Nat.lt_of_succ_le enough) known₁ with ⟨final, run, moved, st', nest, kept⟩
  refine ⟨91, seg, .array, final, rfl, rfl, ?_, ⟨moved.input.trans input, moved.stack.trans stack, moved.faces⟩,
    ?_, ?_, ?_⟩
  · change openArray handlers slot.handler slot.label (jsonParseArray handlers fuel) ctx = _
    rw [same, run, labelled_ok]
  · rw [st']
    rfl
  · rw [nest, level]
    omega
  · rw [level] at kept
    simpa [valueEvents] using kept

theorem opening_number (first : IsDigit c ∨ c = 45) : opening c = some .number := by
  have other : c ≠ 123 ∧ c ≠ 91 ∧ c ≠ 34 := by
    refine ⟨?_, ?_, ?_⟩
    all_goals
      rintro rfl
      exact absurd first (by decide)
  simp only [opening, if_neg other.1, if_neg other.2.1, if_neg other.2.2, if_pos first]

theorem opening_token (first : IsLetter c) : opening c = some .token := by
  have other : c ≠ 123 ∧ c ≠ 91 ∧ c ≠ 34 := by
    refine ⟨?_, ?_, ?_⟩
    all_goals
      rintro rfl
      exact absurd first (by decide)
  have number : ¬ (IsDigit c ∨ c = 45) := by
    rintro (digit | rfl)
    · simp only [IsDigit, IsLetter, UInt8.le_iff_toNat_le] at digit first
      have high : (57 : UInt8).toNat = 57 := rfl
      have low : (97 : UInt8).toNat = 97 ∧ (65 : UInt8).toNat = 65 := ⟨rfl, rfl⟩
      omega
    · exact absurd first (by decide)
  simp only [opening, if_neg other.1, if_neg other.2.1, if_neg other.2.2, if_neg number, if_pos first]

/-- Every phrase of the looser grammar is served. -/
theorem derives_served {p : Phrase} (follows : Follows handlers R) (derived : Derives loose p seg) :
    Served handlers R p seg := by
  induction derived with
  | string closed =>
      intro k u slot fuel ctx rest events told faces _ _ known
      simp only [List.cons_append, List.append_assoc, List.nil_append] at faces
      rcases string_served follows told closed faces known with ⟨ctx', parsed, moved, st, nest, kept⟩
      exact ⟨34, _, .string, ctx', rfl, rfl, parsed, moved, by rw [st]; rfl, nest, kept⟩
  | number allowed =>
      intro k u slot fuel ctx rest events told faces ends _ known
      rcases allowed with ⟨c, cs, rfl, first, all⟩
      rcases number_served follows told first all (ends trivial) faces known with ⟨ctx', parsed, moved, st, nest, kept⟩
      exact ⟨c, cs, .number, ctx', rfl, opening_number first, parsed, moved, by rw [st]; rfl, nest, kept⟩
  | token allowed =>
      intro k u slot fuel ctx rest events told faces ends _ known
      rcases allowed with ⟨c, cs, rfl, first, all⟩
      rcases token_served follows told first all (ends trivial) faces known with ⟨ctx', parsed, moved, st, nest, kept⟩
      exact ⟨c, cs, .token, ctx', rfl, opening_token first, parsed, moved, by rw [st]; rfl, nest, kept⟩
  | emptyObject spaces =>
      apply object_served follows
      intro fuel ctx rest events st faces enough known
      simp only [List.append_assoc, List.cons_append, List.nil_append] at faces enough
      exact object_empty_inside follows spaces st faces enough known
  | @object ws seg ms spaces _ ih =>
      apply object_served follows
      intro fuel ctx rest events st faces enough known
      rw [List.append_assoc] at faces enough
      rcases @obj_spaces U A handlers ctx _ ws fuel spaces (by rw [st]; rfl) faces enough with ⟨fuel', left, same⟩
      rw [same]
      rcases ih fuel' { ctx with idx := ctx.idx + ws.length } rest events (.inl st) faces.advance left known with
        ⟨final, run, moved, others⟩
      exact ⟨final, run, ⟨moved.input, moved.stack, moved.faces⟩, others⟩
  | emptyArray spaces =>
      apply array_served follows
      intro fuel ctx rest events st faces enough known
      simp only [List.append_assoc, List.cons_append, List.nil_append] at faces enough
      exact array_empty_inside follows spaces st faces enough known
  | @array ws seg vs comma spaces _ ih =>
      apply array_served follows
      intro fuel ctx rest events st faces enough known
      rw [List.append_assoc] at faces enough
      rcases @array_spaces U A handlers ctx _ ws fuel spaces (by rw [st]; rfl) faces enough with ⟨fuel', left, same⟩
      rw [same]
      rcases ih fuel' { ctx with idx := ctx.idx + ws.length } rest events (.inl st) faces.advance left known with
        ⟨final, run, moved, others⟩
      exact ⟨final, run, ⟨moved.input, moved.stack, moved.faces⟩, others⟩
  | lastMember closed spaces₁ spaces₂ _ spaces ih => exact members_served_last follows ih closed spaces₁ spaces₂ spaces
  | member closed spaces₁ spaces₂ _ spaces spaces' _ first others =>
      exact members_served_more follows first others closed spaces₁ spaces₂ spaces spaces'
  | lastItem _ spaces ih => exact items_served_last follows ih spaces
  | comma _ _ spaces spaces' ih => exact items_served_comma follows ih spaces spaces'
  | item _ spaces spaces' _ first others => exact items_served_more first others spaces spaces'

/-- The one container of a text, and what the code skips around it. -/
structure Reading (v : Json) (before seg after : List UInt8) : Prop where
  before : ∀ c ∈ before, c ≠ 0 ∧ c ≠ 123 ∧ c ≠ 91
  container : v.Container
  derived : Derives loose (.value v) seg
  after : ∀ c ∈ after, c ≠ 0

def documentEvents : Json → List Event
  | .object ms => valueEvents .value 0 (.object ms)
  | v => valueEvents .item 0 v

theorem consistent_iff {ctx : JsonCtx U A} : jsonCtxConsistent ctx = 0 ↔
    ctx.idx = ctx.input.length ∧ ctx.st.isOut = true ∧ ctx.nest < 0 ∧ ctx.stack = [] := by
  have bit (P : Prop) [Decidable P] (n : Nat) (positive : n ≠ 0) : (if P then n else 0) = 0 ↔ ¬ P := by
    split
    · exact iff_of_false positive fun wrong => wrong (by assumption)
    · exact iff_of_true rfl (by assumption)
  rw [jsonCtxConsistent, Nat.or_eq_zero_iff, Nat.or_eq_zero_iff, Nat.or_eq_zero_iff, bit _ _ (by decide),
    bit _ _ (by decide), bit _ _ (by decide), not_not, Int.not_le, gt_iff_lt, List.length_pos_iff, not_not]
  constructor
  · rintro ⟨⟨⟨idx, st⟩, nest⟩, stack⟩
    refine ⟨idx, ?_, nest, stack⟩
    by_contra other
    simp [other] at st
  · rintro ⟨idx, st, nest, stack⟩
    exact ⟨⟨⟨idx, by simp [st]⟩, nest⟩, stack⟩

theorem object_head {L : Lexicon} {ms : List (List UInt8 × Json)} (derived : Derives L (.value (.object ms)) seg) :
    ∃ s, seg = 123 :: s := by
  cases derived with
  | emptyObject _ | object _ _ => exact ⟨_, rfl⟩

theorem array_head {L : Lexicon} {vs : List Json} {comma : Bool} (derived : Derives L (.value (.array vs comma)) seg) :
    ∃ s, seg = 91 :: s := by
  cases derived with
  | emptyArray _ | array _ _ => exact ⟨_, rfl⟩

/-- Where the text has its container. -/
theorem top_container (follows : Follows handlers R) (container : v.Container) (derived : Derives loose (.value v) seg)
    (st : ctx.st = .start) (faces : Faces ctx.input ctx.idx (seg ++ rest)) (enough : (seg ++ rest).length ≤ fuel)
    (known : R ctx.world events) (level : ctx.nest = -1) :
    ∃ c s ctx', seg = c :: s ∧ c ≠ 0 ∧
      topBody handlers (jsonParseObj handlers fuel) (jsonParseArray handlers fuel) c ctx = .ok (.next ctx') ∧
      Moved ctx ctx' rest ∧ ctx'.st.isOut = true ∧ ctx'.nest = -1 ∧ R ctx'.world (events ++ documentEvents v) := by
  have served := derives_served follows derived
  have zero : ctx.nest + 1 = 0 := by omega
  cases v with
  | object ms =>
      let slot : Slot U A := ⟨{ cb := handlers.value.cb, udata := handlers.item.udata }, fun _ res => res, .obj 3⟩
      rcases object_head derived with ⟨s, rfl⟩
      rcases served .value handlers.item.udata slot fuel ctx rest events rfl faces False.elim enough known with
        ⟨c, s', first, ctx', shape, opens, parsed, moved, out, nest, kept⟩
      cases shape
      cases opens
      rw [zero] at kept
      refine ⟨123, s, ctx', rfl, by decide, ?_, moved, out, nest.trans level, kept⟩
      rw [topBody, if_pos ⟨st, rfl⟩]
      exact congrArg (Except.map Turn.next) parsed
  | array vs comma =>
      let slot : Slot U A := ⟨handlers.item, fun _ res => res, .array 8⟩
      rcases array_head derived with ⟨s, rfl⟩
      rcases served .item handlers.item.udata slot fuel ctx rest events rfl faces False.elim enough known with
        ⟨c, s', first, ctx', shape, opens, parsed, moved, out, nest, kept⟩
      cases shape
      cases opens
      rw [zero] at kept
      refine ⟨91, s, ctx', rfl, by decide, ?_, moved, out, nest.trans level, kept⟩
      rw [topBody, if_neg (fun wrong => absurd wrong.2 (by decide)), if_pos ⟨st, rfl⟩]
      exact congrArg (Except.map Turn.next) parsed
  | _ => exact container.elim

theorem topBody_other (other : ¬ (ctx.st = .start ∧ (c = 123 ∨ c = 91))) :
    topBody handlers obj array c ctx = .ok (.next ctx) := by
  rw [topBody, if_neg fun wrong => other ⟨wrong.1, .inl wrong.2⟩, if_neg fun wrong => other ⟨wrong.1, .inr wrong.2⟩]

theorem top_skips {P : UInt8 → Prop} {Q : JsonState → Prop} (nonzero : ∀ c, P c → c ≠ 0)
    (skips : ∀ c (st : JsonState), P c → Q st → ¬ (st = .start ∧ (c = 123 ∨ c = 91))) (all : ∀ c ∈ ws, P c)
    (st : Q ctx.st) (faces : Faces ctx.input ctx.idx (ws ++ rest)) (enough : (ws ++ rest).length < fuel) :
    ∃ fuel', rest.length < fuel' ∧
      topLoop handlers fuel ctx = topLoop handlers fuel' { ctx with idx := ctx.idx + ws.length } :=
  loop_skips (fun _ _ => rfl)
    (fun _ c ctx holds st => topBody_other (skips c ctx.st holds st)) nonzero all st faces enough

/-- Behind the container. -/
theorem top_end {after : List UInt8} (out : ctx.st.isOut = true) (nonzero : ∀ c ∈ after, c ≠ 0)
    (faces : Faces ctx.input ctx.idx after) (enough : after.length < fuel) :
    topLoop handlers fuel ctx = .ok { ctx with idx := ctx.input.length } := by
  have faces' : Faces ctx.input ctx.idx (after ++ []) := by rwa [List.append_nil]
  rcases top_skips (Q := fun st => st.isOut = true) (fun _ nonzero => nonzero) (fun c st _ out wrong => by
    rw [wrong.1] at out
    exact absurd out (by decide)) nonzero out faces' (by rwa [List.append_nil]) with ⟨fuel', left, same⟩
  have length := faces.length
  cases fuel' with
  | zero => exact absurd left (Nat.not_lt_zero _)
  | succ fuel' =>
      rw [same, topLoop, length]
      apply iterate_end
      change Faces ctx.input ctx.input.length []
      exact length ▸ faces'.advance

/-- A text that can be read is parsed, the context is consistent afterwards, and the
callbacks are those of the document. -/
theorem jsonParse_reading {before after : List UInt8} (follows : Follows handlers R)
    (reading : Reading v before seg after)
    (st : ctx.st = .start) (idx : ctx.idx = 0) (nest : ctx.nest = -1) (stack : ctx.stack = [])
    (known : R ctx.world []) :
    ∃ ctx', jsonParse handlers (before ++ (seg ++ after)) ctx = .ok ctx' ∧ jsonCtxConsistent ctx' = 0 ∧
      R ctx'.world (documentEvents v) := by
  let text := before ++ (seg ++ after)
  let ctx₀ : JsonCtx U A := { ctx with input := text }
  have faces₀ : Faces ctx₀.input ctx₀.idx text := by
    change Faces text ctx.idx text
    rw [idx]
    exact Faces.start text
  rcases @top_skips U A handlers ctx₀ _ before (text.length + 1) (fun c => c ≠ 0 ∧ c ≠ 123 ∧ c ≠ 91) (fun _ => True)
    (fun _ marks => marks.1) (fun c _ marks _ wrong => wrong.2.elim marks.2.1 marks.2.2) reading.before trivial faces₀
    (Nat.lt_succ_self _) with ⟨fuel, left, same⟩
  cases fuel with
  | zero => exact absurd left (Nat.not_lt_zero _)
  | succ fuel =>
      let ctx₁ : JsonCtx U A := { ctx₀ with idx := ctx₀.idx + before.length }
      have st₁ : ctx₁.st = .start := st
      have faces₁ : Faces ctx₁.input ctx₁.idx (seg ++ after) := faces₀.advance
      have known₁ : R ctx₁.world [] := known
      rcases top_container follows reading.container reading.derived st₁ faces₁ (Nat.le_of_lt_succ left) known₁ nest
        with ⟨c, s, ctx₂, rfl, nonzero, turn, moved, out, nest₂, kept⟩
      have shorter : after.length < fuel := by
        simp only [List.length_append, List.length_cons] at left
        omega
      have ended := @top_end U A handlers
        { ctx₂ with idx := ctx₂.idx + 1 } fuel after out reading.after moved.faces shorter
      refine ⟨{ ctx₂ with idx := ctx₂.input.length }, ?_, ?_, kept⟩
      · rw [jsonParse]
        change topLoop handlers (text.length + 1) ctx₀ = _
        rw [same, topLoop, iterate_next faces₁ nonzero turn]
        exact ended
      · rw [consistent_iff]
        refine ⟨rfl, out, ?_, moved.stack.trans stack⟩
        change ctx₂.nest < 0
        rw [nest₂]
        decide

end MnCommon.JsonParser
