import MnCommon.JsonParser.Reader

/-! The calls that the code makes are those that the text tells. -/

namespace MnCommon.JsonParser

open Grammars (IsDigit IsLetter Closed)

variable {U A : Type} {handlers : JsonHandlers U A} {ctx ctx' ctx₁ : JsonCtx U A} {loops : List Container}
  {k : Container} {obj array : Parser U A} {body cs rest : List UInt8} {c d : UInt8} {st : JsonState} {l : Look}

/-! The words of the text. -/

theorem stringBody_closed (closed : Closed body) (rest : List UInt8) : stringBody (body ++ 34 :: rest) = some body := by
  induction closed with
  | nil => simp [stringBody]
  | @char c body quote slash _ ih => simp [stringBody, quote, slash, ih]
  | @escape c body _ ih => simp [stringBody, ih]

theorem stringBody_some (found : stringBody cs = some body) : Closed body ∧ ∃ rest, cs = body ++ 34 :: rest := by
  fun_induction stringBody cs generalizing body with
  | case1 => cases found
  | case2 => cases found
  | case3 d cs ih =>
      rcases Option.map_eq_some_iff.mp found with ⟨body', found', rfl⟩
      rcases ih found' with ⟨closed, rest, rfl⟩
      exact ⟨.escape d closed, rest, rfl⟩
  | case4 cs =>
      cases found
      exact ⟨.nil, cs, rfl⟩
  | case5 c cs alone escape quote ih =>
      rcases Option.map_eq_some_iff.mp found with ⟨body', found', rfl⟩
      rcases ih found' with ⟨closed, rest, same⟩
      have slash : c ≠ 92 := by
        intro slash
        cases cs with
        | nil => exact alone slash rfl
        | cons d cs => exact escape d cs slash rfl
      exact ⟨.char quote slash closed, rest, congrArg (c :: ·) same⟩

theorem wordOf_run {P : UInt8 → Prop} [DecidablePred P] {word : List UInt8} (all : ∀ c ∈ word, P c) (ends : ¬ P d) :
    wordOf P (word ++ d :: rest) = some word := by
  have whole : ¬ ((word ++ d :: rest).all fun c => P c) := by simp [ends]
  have taken : (word ++ d :: rest).takeWhile (fun c => P c) = word := by
    rw [List.takeWhile_append_of_pos (by simpa using all)]
    simp [ends]
  rw [wordOf, if_neg whole, taken]

theorem wordOf_some {P : UInt8 → Prop} [DecidablePred P] {word : List UInt8} (found : wordOf P cs = some word) :
    (∀ c ∈ word, P c) ∧ ∃ d rest, cs = word ++ d :: rest ∧ ¬ P d := by
  rcases exists_run P cs with ⟨word', rest, rfl, all, ends⟩
  cases rest with
  | nil =>
      have whole : (word' ++ []).all fun c => P c := by simpa using all
      rw [wordOf, if_pos whole] at found
      cases found
  | cons d rest =>
      rw [wordOf_run all (ends d rfl)] at found
      cases found
      exact ⟨all, d, rest, rfl, ends d rfl⟩

theorem wordOf_none {P : UInt8 → Prop} [DecidablePred P] (found : wordOf P cs = none) : ∀ c ∈ cs, P c := by
  rw [wordOf] at found
  split_ifs at found with whole
  simpa using whole

/-! What the client is told of. -/

def Notice.label (n : Notice) : Failure → Failure :=
  match n.code with
  | none => fun res => res
  | some code => fun _ => .array code

/-- The handler of a callback, with the user data that goes to it. -/
def JsonHandlers.noticed (handlers : JsonHandlers U A) (n : Notice) : JsonHandler U A :=
  { handlers.get n.callback with udata := (handlers.get n.data).udata }

def tell (handlers : JsonHandlers U A) : List Notice → Parser U A
  | [], ctx => .ok ctx
  | n :: ns, ctx => labelled n.label ((handlers.noticed n).call ctx) >>= tell handlers ns

def JsonCtx.inward (ctx : JsonCtx U A) : JsonCtx U A := { ctx with nest := ctx.nest + 1 }

def JsonCtx.outward (ctx : JsonCtx U A) : JsonCtx U A := { ctx with nest := ctx.nest - 1 }

/-- The context that the callbacks get. -/
def Look.ready (loops : List Container) (ctx : JsonCtx U A) : Look → JsonCtx U A
  | .pass st => { ctx with st := st }
  | .key body => (ctx.strMarked (ctx.strFlags body) .keyOut body.length).inward
  | .string body => (ctx.strMarked (ctx.strFlags body) .strOut body.length).inward
  | .number (c :: cs) => (ctx.numMarked c cs).inward
  | .token chars => (tokenValue ctx.idx (ctx.tokEnded (ctx.idx + (chars.length - 1)))).inward
  | .enter k => { ctx with st := k.begun, ty := k.type, nest := ctx.nest + 1 }
  | .leave => { ctx with st := endedState loops ctx.st, ty := endedType loops }
  | _ => ctx

def Look.settled (ctx : JsonCtx U A) : Look → JsonCtx U A
  | .key _ | .string _ | .number _ | .token _ | .leave => { ctx with nest := ctx.nest - 1, idx := ctx.idx + 1 }
  | _ => { ctx with idx := ctx.idx + 1 }

theorem tell_single (n : Notice) (ctx : JsonCtx U A) :
    tell handlers [n] ctx = labelled n.label ((handlers.noticed n).call ctx) := by
  rw [tell]
  cases labelled n.label ((handlers.noticed n).call ctx) with
  | error failed => rfl
  | ok ctx => rfl

def slotFor (handlers : JsonHandlers U A) : Container → Slot U A
  | .object => memberSlot handlers
  | .array => itemSlot handlers

theorem slot_told (loops : List Container) (n : Nat) (ctx : JsonCtx U A) :
    labelled ((slotFor handlers k).label n) ((slotFor handlers k).handler.call ctx) =
      tell handlers [slotNotice n (k :: loops)] ctx := by
  rw [tell_single]
  cases k <;> rfl

theorem labelled_callWithin (label : Failure → Failure) (h : JsonHandler U A) (ctx : JsonCtx U A) :
    labelled label (h.callWithin ctx) = labelled label (h.call ctx.inward) >>= fun ctx => .ok ctx.outward := by
  rw [JsonHandler.callWithin]
  change labelled label (h.call ctx.inward >>= _) = _
  cases h.call ctx.inward with
  | error failed => rfl
  | ok ctx => rfl

/-- A word that the end of the text cuts off. -/
structure Cut (ctx ctx' : JsonCtx U A) : Prop where
  input : ctx'.input = ctx.input
  stack : ctx'.stack = ctx.stack
  world : ctx'.world = ctx.world
  nest : ctx'.nest = ctx.nest
  idx : ctx'.idx = ctx.input.length
  begun : ctx'.st ≠ .start
  inside : ctx'.st.isOut = false

theorem strLoop_cut {chars : List UInt8} (inside : (ctx.st = .strIn ∨ ctx.st = .str) ∨ ctx.st = .strEsc)
    (ends : ctx.idx + chars.length = ctx.input.length) :
    (∃ ctx', strLoop chars ctx = .ok ctx') ∨ ∃ ctx', strLoop chars ctx = .error (.needMore, ctx') ∧ Cut ctx ctx' := by
  induction chars generalizing ctx with
  | nil =>
      have out : ctx.st ≠ .strOut ∧ ctx.st ≠ .start ∧ ctx.st.isOut = false := by
        rcases inside with (st | st) | st <;> rw [st] <;> decide
      refine .inr ⟨ctx, ?_, rfl, rfl, rfl, rfl, ends, out.2.1, out.2.2⟩
      rw [strLoop, strEnd, if_neg out.1]
  | cons ch chars ih =>
      have ends' : ctx.idx + 1 + chars.length = ctx.input.length := by
        rw [List.length_cons] at ends
        omega
      have step (st : JsonState) (flags : JsonFlags) (inside : (st = .strIn ∨ st = .str) ∨ st = .strEsc)
          (same : strLoop (ch :: chars) ctx =
            strLoop chars { ctx with st := st, flags := flags, idx := ctx.idx + 1 }) :
          (∃ ctx', strLoop (ch :: chars) ctx = .ok ctx') ∨
            ∃ ctx', strLoop (ch :: chars) ctx = .error (.needMore, ctx') ∧ Cut ctx ctx' := by
        rcases @ih { ctx with st := st, flags := flags, idx := ctx.idx + 1 } inside ends' with
          ⟨ctx', run⟩ | ⟨ctx', run, cut⟩
        · exact .inl ⟨ctx', same.trans run⟩
        · exact .inr ⟨ctx', same.trans run, cut.input, cut.stack, cut.world, cut.nest, cut.idx, cut.begun, cut.inside⟩
      rcases inside with inside | st
      · by_cases slash : ch = 92
        · rcases inside with st | st
          · exact step .strEsc { ctx.flags with needUnescape := true } (.inr rfl) (by simp [strLoop, st, slash])
          · exact step .strEsc ctx.flags (.inr rfl) (by simp [strLoop, st, slash])
        · by_cases quote : ch = 34
          · refine .inl ⟨ctx.strEnded ctx.flags ctx.idx, ?_⟩
            rcases inside with st | st <;> simp [strLoop, st, quote, strEnd, JsonCtx.strEnded]
          · refine step .str ctx.flags (.inl (.inr rfl)) ?_
            rcases inside with st | st <;> simp [strLoop, st, slash, quote]
      · exact step .str ctx.flags (.inl (.inr rfl)) (by simp [strLoop, st])

theorem jsonParseStr_cut (faces : Faces ctx.input ctx.idx (34 :: cs)) (unclosed : stringBody cs = none) :
    ∃ ctx', jsonParseStr ctx.strBegun = .error (.needMore, ctx') ∧ Cut ctx ctx' := by
  have length := faces.step.length
  have left : jsonParseStr ctx.strBegun = strLoop cs { ctx.strBegun with flags.needUnescape := false } := by
    rw [jsonParseStr]
    change strLoop (ctx.input.drop (ctx.idx + 1)) _ = _
    rw [faces.step.left]
  rcases @strLoop_cut U A { ctx.strBegun with flags.needUnescape := false } cs (.inl (.inl rfl)) length with
    ⟨ctx', run⟩ | ⟨ctx', run, cut⟩
  · rcases jsonParseStr_ok faces (left.trans run) with ⟨body, rest, flags, rfl, closed, -⟩
    rw [stringBody_closed closed] at unclosed
    cases unclosed
  · exact ⟨ctx', left.trans run, cut.input, cut.stack, cut.world, cut.nest, cut.idx, cut.begun, cut.inside⟩

theorem jsonParseNum_cut (faces : Faces ctx.input ctx.idx (c :: cs)) (first : IsDigit c ∨ c = 45)
    (all : ∀ x ∈ cs, NumChar x) :
    ∃ ctx', jsonParseNum { ctx with st := .numIn } = .error (.needMore, ctx') ∧ Cut ctx ctx' := by
  have length := faces.step.length
  have run := @numLoop_chars U A ctx.numBegun cs [] rfl all
  rw [List.append_nil, numLoop_nil rfl] at run
  rw [jsonParseNum_eq faces first, run]
  exact ⟨_, rfl, rfl, rfl, rfl, rfl, length, by simp, rfl⟩

theorem jsonParseTok_cut (faces : Faces ctx.input ctx.idx (c :: cs)) (first : IsLetter c)
    (all : ∀ x ∈ cs, TokChar x) :
    ∃ ctx', jsonParseTok { ctx with st := .tokIn } = .error (.needMore, ctx') ∧ Cut ctx ctx' := by
  have length := faces.step.length
  have run := @tokLoop_chars U A { ctx with st := .tok, idx := ctx.idx + 1 } cs [] rfl all
  rw [List.append_nil, tokLoop, tokEnd, if_neg (by simp)] at run
  rw [jsonParseTok_eq faces first, run]
  exact ⟨_, rfl, rfl, rfl, rfl, rfl, length, by simp, rfl⟩

/-! The turns of the loops. -/

def Look.told (handlers : JsonHandlers U A) (loops : List Container) (ctx : JsonCtx U A) (l : Look) :
    Parse U A (JsonCtx U A) := tell handlers (l.notices loops ctx.st) (l.ready loops ctx)

/-- What a turn comes to. -/
def Turns (handlers : JsonHandlers U A) (loops : List Container) (ctx : JsonCtx U A) (turn : Parse U A (Turn U A)) :
    Look → Prop
  | .finished | .lapse => False
  | .pass st => turn = .ok (.next { ctx with st := st })
  | .enter k => turn = (Look.told handlers loops ctx (.enter k) >>= fun ctx₁ =>
      labelled (innerLabel loops k) (loop handlers k { ctx₁ with idx := ctx₁.idx + 1 })).map .next
  | .leave => turn = (Look.told handlers loops ctx .leave >>= fun ctx₁ => .ok ctx₁.outward).map .leave
  | .cut => ∃ ctx', turn = .error (.needMore, ctx') ∧ Cut ctx ctx'
  | .reject res => turn = .error (res, ctx)
  | l => turn = (l.told handlers loops ctx >>= fun ctx₁ => .ok ctx₁.outward).map .next

theorem string_turns (left : ctx.input.drop ctx.idx = 34 :: cs) :
    Turns handlers (k :: loops) ctx
      ((jsonParseValue handlers (slotFor handlers k) obj array ctx .string).map .next) (lookValue 34 cs .string) := by
  have faces := Faces.of_left left
  cases found : stringBody cs with
  | none =>
      rcases jsonParseStr_cut faces found with ⟨ctx', run, cut⟩
      simp only [lookValue, found, Option.map_none, Option.getD_none]
      refine ⟨ctx', ?_, cut⟩
      rw [jsonParseValue]
      change ((jsonParseStr ctx.strBegun >>= _).map _) = _
      rw [run]
      rfl
  | some body =>
      rcases stringBody_some found with ⟨closed, rest, rfl⟩
      simp only [lookValue, found, Option.map_some, Option.getD_some]
      change _ = (Look.told handlers (k :: loops) ctx (.string body) >>= _).map _
      congr 1
      rw [jsonParseValue]
      change (jsonParseStr ctx.strBegun >>= _) = _
      rw [jsonParseStr_closed faces closed]
      change labelled _ ((slotFor handlers k).handler.callWithin (ctx.strMarked (ctx.strFlags body) .strOut body.length)) = _
      rw [labelled_callWithin, slot_told loops]
      rfl

theorem number_turns (left : ctx.input.drop ctx.idx = c :: cs) (first : IsDigit c ∨ c = 45) :
    Turns handlers (k :: loops) ctx
      ((jsonParseValue handlers (slotFor handlers k) obj array ctx .number).map .next) (lookValue c cs .number) := by
  have faces := Faces.of_left left
  cases found : wordOf NumChar cs with
  | none =>
      rcases jsonParseNum_cut faces first (wordOf_none found) with ⟨ctx', run, cut⟩
      simp only [lookValue, found, Option.map_none, Option.getD_none]
      refine ⟨ctx', ?_, cut⟩
      rw [jsonParseValue]
      simp only [run]
      rfl
  | some word =>
      rcases wordOf_some found with ⟨all, d, rest, rfl, ends⟩
      simp only [lookValue, found, Option.map_some, Option.getD_some]
      change _ = (Look.told handlers (k :: loops) ctx (.number (c :: word)) >>= _).map _
      congr 1
      rw [jsonParseValue]
      simp only [jsonParseNum_chars faces first all ends, bind, Except.bind,
        numMarked_value all ends faces (slotFor handlers k).badNumber]
      rw [labelled_callWithin, slot_told loops]
      rfl

theorem token_turns (left : ctx.input.drop ctx.idx = c :: cs) (first : IsLetter c) :
    Turns handlers (k :: loops) ctx
      ((jsonParseValue handlers (slotFor handlers k) obj array ctx .token).map .next) (lookValue c cs .token) := by
  have faces := Faces.of_left left
  cases found : wordOf TokChar cs with
  | none =>
      rcases jsonParseTok_cut faces first (wordOf_none found) with ⟨ctx', run, cut⟩
      simp only [lookValue, found, Option.map_none, Option.getD_none]
      refine ⟨ctx', ?_, cut⟩
      rw [jsonParseValue]
      simp only [run]
      rfl
  | some word =>
      rcases wordOf_some found with ⟨all, d, rest, rfl, ends⟩
      simp only [lookValue, found, Option.map_some, Option.getD_some]
      change _ = (Look.told handlers (k :: loops) ctx (.token (c :: word)) >>= _).map _
      congr 1
      rw [jsonParseValue]
      simp only [jsonParseTok_chars faces first all ends, bind, Except.bind]
      rw [labelled_callWithin, slot_told loops]
      rfl

theorem key_turns (left : ctx.input.drop ctx.idx = 34 :: cs) :
    Turns handlers (k :: loops) ctx ((jsonParseKey handlers ctx).map .next) (lookKey cs) := by
  have faces := Faces.of_left left
  cases found : stringBody cs with
  | none =>
      rcases jsonParseStr_cut faces found with ⟨ctx', run, cut⟩
      simp only [lookKey, found, Option.map_none, Option.getD_none]
      refine ⟨ctx', ?_, cut⟩
      rw [jsonParseKey]
      change ((jsonParseStr ctx.strBegun >>= _).map _) = _
      rw [run]
      rfl
  | some body =>
      rcases stringBody_some found with ⟨closed, rest, rfl⟩
      simp only [lookKey, found, Option.map_some, Option.getD_some]
      change _ = (Look.told handlers (k :: loops) ctx (.key body) >>= _).map _
      congr 1
      rw [jsonParseKey]
      change (jsonParseStr ctx.strBegun >>= _) = _
      rw [jsonParseStr_closed faces closed]
      change handlers.key.callWithin (ctx.strMarked (ctx.strFlags body) .keyOut body.length) = _
      rw [← labelled_same (handlers.key.callWithin _), labelled_callWithin]
      change _ = (tell handlers [⟨.key, .key, none⟩] _ >>= _)
      rw [tell_single]
      rfl

theorem object_turns :
    jsonParseValue handlers (slotFor handlers k) (loop handlers .object) array ctx .object =
      Look.told handlers (k :: loops) ctx (.enter .object) >>= fun ctx₁ =>
        labelled (innerLabel (k :: loops) .object) (loop handlers .object { ctx₁ with idx := ctx₁.idx + 1 }) := by
  have same : innerLabel (k :: loops) .object = fun res => res := by cases k <;> rfl
  rw [same]
  simp only [labelled_same]
  cases k <;> simp only [Look.told, Look.notices, tell, bind_assoc] <;> rfl

theorem array_turns :
    jsonParseValue handlers (slotFor handlers k) obj (loop handlers .array) ctx .array =
      Look.told handlers (k :: loops) ctx (.enter .array) >>= fun ctx₁ =>
        labelled (innerLabel (k :: loops) .array) (loop handlers .array { ctx₁ with idx := ctx₁.idx + 1 }) := by
  cases k <;> simp only [Look.told, Look.notices, tell, bind_assoc] <;> rfl

theorem value_turns (left : ctx.input.drop ctx.idx = c :: cs) {first : Opening} (opens : opening c = some first) :
    Turns handlers (k :: loops) ctx ((jsonParseValue handlers (slotFor handlers k) (loop handlers .object)
      (loop handlers .array) ctx first).map .next) (lookValue c cs first) := by
  rcases opening_cases opens with ⟨rfl, rfl⟩ | ⟨rfl, rfl⟩ | ⟨rfl, rfl⟩ | ⟨rfl, digit⟩ | ⟨rfl, letter⟩
  · exact congrArg (Except.map Turn.next) object_turns
  · exact congrArg (Except.map Turn.next) array_turns
  · exact string_turns left
  · exact number_turns left digit
  · exact token_turns left letter

theorem space_turns (res : Failure) : Turns handlers (k :: loops) ctx (skipSpace res c ctx) (lookSpace ctx.st c res) := by
  by_cases space : jsnIsSpace c = true
  · rw [lookSpace, if_pos space]
    exact if_pos space
  · rw [lookSpace, if_neg space]
    exact if_neg space

theorem object_close_turns :
    Turns handlers (.object :: loops) ctx ((closeObject handlers ctx).map .leave) .leave := by
  change _ = (tell handlers [⟨.ostop, .ostop, none⟩] _ >>= _).map _
  rw [tell_single]
  change _ = (labelled (fun res => res) _ >>= _).map _
  rw [labelled_same]
  rfl

theorem array_close_turns {n : Nat} (code : n = if ctx.st.isOut then 12 else 1) :
    Turns handlers (.array :: loops) ctx ((closeArray handlers n ctx).map .leave) .leave := by
  change _ = (tell handlers [⟨.astop, .astop, some (if ctx.st.isOut then 12 else 1)⟩] _ >>= _).map _
  rw [tell_single, ← code]
  rfl

theorem object_look (left : ctx.input.drop ctx.idx = c :: cs) :
    Turns handlers (.object :: loops) ctx (bodyOf handlers .object c ctx) (lookObject ctx.st c cs) := by
  have outside : Turns handlers (.object :: loops) ctx
      (if c = 44 then .ok (.next { ctx with st := .eNext })
        else if c = 125 then (closeObject handlers ctx).map .leave
        else skipSpace (.obj 5) c ctx)
      (if c = 44 then .pass .eNext else if c = 125 then .leave else lookSpace ctx.st c (.obj 5)) := by
    split_ifs
    · rfl
    · exact object_close_turns
    · exact space_turns _
  cases st : ctx.st with
  | ostart =>
      simp only [bodyOf, objBody, lookObject, st]
      split_ifs with close key
      · exact object_close_turns
      · rw [key] at left
        exact key_turns left
      · exact st ▸ space_turns _
  | keyOut =>
      simp only [bodyOf, objBody, lookObject, st]
      split_ifs
      · rfl
      · exact st ▸ space_turns _
  | eValue =>
      simp only [bodyOf, objBody, lookObject, st]
      cases opens : opening c with
      | none => exact st ▸ space_turns _
      | some first => exact value_turns left opens
  | eNext =>
      simp only [bodyOf, objBody, lookObject, st]
      split_ifs with key
      · rw [key] at left
        exact key_turns left
      · exact st ▸ space_turns _
  | strOut | numOut | tokOut | ostop | astop =>
      rw [st] at outside
      simpa only [bodyOf, objBody, lookObject, st, JsonState.isOut, if_true] using outside
  | _ =>
      simp only [bodyOf, objBody, lookObject, st, JsonState.isOut, Bool.false_eq_true, if_false]
      rfl

theorem array_look (left : ctx.input.drop ctx.idx = c :: cs) :
    Turns handlers (.array :: loops) ctx (bodyOf handlers .array c ctx) (lookArray ctx.st c cs) := by
  cases st : ctx.st with
  | astart | eNext =>
      simp only [bodyOf, arrayBody, lookArray, st]
      split_ifs with close
      · exact array_close_turns (by rw [st]; rfl)
      · cases opens : opening c with
        | none => exact st ▸ space_turns _
        | some first => exact value_turns left opens
  | strOut | numOut | tokOut | ostop | astop =>
      simp only [bodyOf, arrayBody, lookArray, st, JsonState.isOut, if_true]
      split_ifs
      · rfl
      · exact array_close_turns (by rw [st]; rfl)
      · exact st ▸ space_turns _
  | _ =>
      simp only [bodyOf, arrayBody, lookArray, st, JsonState.isOut, Bool.false_eq_true, if_false]
      rfl

theorem top_look (c : UInt8) :
    Turns handlers [] ctx (topBody handlers (loop handlers .object) (loop handlers .array) c ctx)
      (lookTop ctx.st c) := by
  rw [topBody, lookTop]
  split_ifs
  · change _ = (Look.told handlers [] ctx (.enter .object) >>= fun ctx₁ => labelled (fun res => res) _).map _
    simp only [labelled_same, Look.told, Look.notices, tell, bind_assoc]
    rfl
  · change _ = (Look.told handlers [] ctx (.enter .array) >>= fun ctx₁ => labelled (fun res => res) _).map _
    simp only [Look.told, Look.notices, tell, bind_assoc]
    rfl
  · rfl

/-! The parser goes the way of the reader. -/

theorem label_other {n : Notice} {res : Failure} (other : res ≠ .outOfFuel) : n.label res ≠ .outOfFuel := by
  rw [Notice.label]
  cases n.code with
  | none => exact other
  | some code => simp

theorem loop_enough (k : Container) (fuel : Nat) : Enough fuel (loop handlers k) := by
  intro ctx _
  rcases loops_finish handlers ((ctx.input.drop ctx.idx).length + 1) with ⟨obj, array⟩
  cases k with
  | object => exact obj ctx (Nat.lt_succ_self _)
  | array => exact array ctx (Nat.lt_succ_self _)

theorem bodyOf_finishes (left : ctx.input.drop ctx.idx = c :: cs) : Finishes (bodyOf handlers k c ctx) := by
  cases k with
  | object => exact objBody_finishes (loop_enough _ _) (loop_enough _ _) left (Nat.lt_succ_self _)
  | array => exact arrayBody_finishes (loop_enough _ _) (loop_enough _ _) left (Nat.lt_succ_self _)

/-- A failure goes through all the loops, success to what comes next. -/
def passOn (loops : List Container) (parse : Parse U A (JsonCtx U A)) (more : Parser U A) : Parse U A (JsonCtx U A) :=
  match parse with
  | .error failed => .error (relabel loops failed.1, failed.2)
  | .ok ctx => more ctx

def turnBody (handlers : JsonHandlers U A) : List Container → Body U A
  | [] => topBody handlers (loop handlers .object) (loop handlers .array)
  | k :: _ => bodyOf handlers k

theorem running_eq (handlers : JsonHandlers U A) (loops : List Container) (ctx : JsonCtx U A) :
    running handlers loops ctx = iterate (turnBody handlers loops) (running handlers loops) ctx := by
  cases loops with
  | nil => exact top_eq handlers ctx
  | cons k loops => exact loop_eq handlers k ctx

variable (handlers) in
theorem turnBody_look (loops : List Container) (left : ctx.input.drop ctx.idx = c :: cs) (nonzero : c ≠ 0) :
    Turns handlers loops ctx (turnBody handlers loops c ctx) (look loops ctx.st (c :: cs)) := by
  cases loops with
  | nil =>
      simp only [look, if_neg nonzero]
      exact top_look c
  | cons k loops =>
      cases k with
      | object =>
          simp only [look, if_neg nonzero]
          exact object_look left
      | array =>
          simp only [look, if_neg nonzero]
          exact array_look left

theorem turnBody_finishes (loops : List Container) (left : ctx.input.drop ctx.idx = c :: cs) :
    Finishes (turnBody handlers loops c ctx) := by
  cases loops with
  | nil => exact topBody_finishes (loop_enough _ _) (loop_enough _ _) left (Nat.lt_succ_self _)
  | cons k loops => exact bodyOf_finishes left

theorem resume_failed {res : Failure} (left : ctx.input.drop ctx.idx = c :: cs) (nonzero : c ≠ 0)
    (turn : turnBody handlers loops c ctx = .error (res, ctx')) :
    resume handlers loops ctx = .error (relabel loops res, ctx') := by
  have other : res ≠ .outOfFuel := fun wrong => turnBody_finishes loops left ctx' (by rw [turn, wrong])
  rw [resume, running_eq, iterate, (Faces.of_left left).head]
  simp only [if_neg nonzero, turn]
  exact finish_error other

/-- A NUL stops the loop in which the parser stands. -/
theorem resume_nul (left : ctx.input.drop ctx.idx = 0 :: cs) :
    resume handlers (k :: loops) ctx = resume handlers loops { ctx with idx := ctx.idx + 1 } := by
  rw [resume, running_eq, iterate, (Faces.of_left left).head]
  exact finish_ok

theorem resume_end (left : ctx.input.drop ctx.idx = []) :
    resume handlers loops ctx = .ok { ctx with idx := ctx.idx + loops.length } := by
  induction loops generalizing ctx with
  | nil =>
      have beyond : ctx.input[ctx.idx]? = none := by rw [← List.head?_drop, left]; rfl
      rw [resume, running_eq, iterate, beyond]
      rfl
  | cons k loops ih =>
      have beyond : ctx.input[ctx.idx]? = none := by rw [← List.head?_drop, left]; rfl
      have left' : ctx.input.drop (ctx.idx + 1) = [] := by rw [← List.drop_drop, left]; rfl
      rw [resume, running_eq, iterate, beyond]
      change finish handlers (k :: loops) (.ok ctx) = _
      rw [finish_ok, ih left', List.length_cons, Nat.add_comm loops.length, Nat.add_assoc]

variable (handlers) in
theorem resume_finished (looks : look loops ctx.st (ctx.input.drop ctx.idx) = .finished) :
    resume handlers loops ctx = .ok { ctx with idx := ctx.idx + loops.length } := by
  cases left : ctx.input.drop ctx.idx with
  | nil => exact resume_end left
  | cons c cs =>
      by_cases zero : c = 0
      · subst zero
        cases loops with
        | nil =>
            rw [resume, running_eq, iterate, (Faces.of_left left).head]
            rfl
        | cons k loops =>
            rw [left] at looks
            cases k <;> cases looks
      · have turns := turnBody_look handlers loops left zero
        rw [← left, looks] at turns
        exact turns.elim

variable (handlers) in
/-- What is neither the end nor a NUL is looked at by the body of the loop. -/
theorem turns_of_look (looks : look loops ctx.st (ctx.input.drop ctx.idx) = l) (going : l ≠ .finished)
    (staying : l ≠ .lapse) :
    ∃ c cs, ctx.input.drop ctx.idx = c :: cs ∧ c ≠ 0 ∧ Turns handlers loops ctx (turnBody handlers loops c ctx) l := by
  cases left : ctx.input.drop ctx.idx with
  | nil =>
      rw [left] at looks
      exact absurd looks.symm going
  | cons c cs =>
      have nonzero : c ≠ 0 := by
        rintro rfl
        rw [left] at looks
        rcases loops with _ | ⟨_ | _, loops⟩
        · exact going looks.symm
        · exact staying looks.symm
        · exact staying looks.symm
      have turns := turnBody_look handlers loops left nonzero
      rw [← left, looks] at turns
      exact ⟨c, cs, rfl, nonzero, turns⟩

variable (handlers) in
theorem resume_cut (looks : look loops ctx.st (ctx.input.drop ctx.idx) = .cut) :
    ∃ ctx', resume handlers loops ctx = .error (relabel loops .needMore, ctx') ∧ Cut ctx ctx' := by
  rcases turns_of_look handlers looks (by simp) (by simp) with ⟨c, cs, left, nonzero, ctx', turn, cut⟩
  exact ⟨ctx', resume_failed left nonzero turn, cut⟩

variable (handlers) in
theorem resume_reject {res : Failure} (looks : look loops ctx.st (ctx.input.drop ctx.idx) = .reject res) :
    resume handlers loops ctx = .error (relabel loops res, ctx) := by
  rcases turns_of_look handlers looks (by simp) (by simp) with ⟨c, cs, left, nonzero, turn⟩
  exact resume_failed left nonzero turn

theorem look_top_stays (st : JsonState) (chars : List UInt8) : look [] st chars ≠ .leave := by
  intro wrong
  cases chars with
  | nil => cases wrong
  | cons c cs =>
      simp only [look, lookTop] at wrong
      split_ifs at wrong

/-- A turn that tells something fails where the caller does, and goes on from what the
caller leaves. -/
theorem resume_passes (left : ctx.input.drop ctx.idx = c :: cs) (nonzero : c ≠ 0) {told : Parse U A (JsonCtx U A)}
    {onward : JsonCtx U A → Parse U A (JsonCtx U A)} {next : JsonCtx U A → Turn U A} {more : Parser U A}
    (turn : turnBody handlers loops c ctx = (told >>= onward).map next)
    (goes : ∀ ctx', turnBody handlers loops c ctx = (onward ctx').map next → resume handlers loops ctx = more ctx') :
    resume handlers loops ctx = passOn loops told more := by
  cases told with
  | error failed => exact resume_failed left nonzero turn
  | ok ctx' => exact goes ctx' turn

/-- A turn that tells something and goes on in its loop. -/
theorem resume_told (left : ctx.input.drop ctx.idx = c :: cs) (nonzero : c ≠ 0)
    (turn : turnBody handlers loops c ctx =
      (l.told handlers loops ctx >>= fun ctx₁ => .ok ctx₁.outward).map .next) :
    resume handlers loops ctx = passOn loops (l.told handlers loops ctx) fun ctx' =>
      resume handlers loops { ctx' with nest := ctx'.nest - 1, idx := ctx'.idx + 1 } := by
  refine resume_passes left nonzero turn fun ctx' turn => ?_
  exact resume_next (running_eq handlers loops ctx) left nonzero turn

theorem resume_entered {k : Container} (left : ctx.input.drop ctx.idx = c :: cs) (nonzero : c ≠ 0)
    (turn : turnBody handlers loops c ctx = (Look.told handlers loops ctx (.enter k) >>= fun ctx₁ =>
      labelled (innerLabel loops k) (loop handlers k { ctx₁ with idx := ctx₁.idx + 1 })).map .next) :
    resume handlers loops ctx = passOn loops (Look.told handlers loops ctx (.enter k)) fun ctx' =>
      resume handlers (k :: loops) { ctx' with idx := ctx'.idx + 1 } := by
  refine resume_passes left nonzero turn fun ctx' turn => ?_
  rw [← finish_enter, resume, running_eq, iterate, (Faces.of_left left).head]
  simp only [if_neg nonzero, turn]
  cases labelled (innerLabel loops k) (loop handlers k { ctx' with idx := ctx'.idx + 1 }) <;> rfl

theorem resume_left (left : ctx.input.drop ctx.idx = c :: cs) (nonzero : c ≠ 0)
    (turn : turnBody handlers (k :: loops) c ctx =
      (Look.told handlers (k :: loops) ctx .leave >>= fun ctx₁ => .ok ctx₁.outward).map .leave) :
    resume handlers (k :: loops) ctx = passOn (k :: loops) (Look.told handlers (k :: loops) ctx .leave) fun ctx' =>
      resume handlers loops { ctx' with nest := ctx'.nest - 1, idx := ctx'.idx + 1 } := by
  refine resume_passes left nonzero turn fun ctx' turn => ?_
  exact resume_leave left nonzero turn

/-- What is told fails the parse, or the parser goes on where the reader does. -/
theorem resume_look (looks : look loops ctx.st (ctx.input.drop ctx.idx) = l) (goes : l.Goes) :
    resume handlers loops ctx = passOn loops (l.told handlers loops ctx) fun ctx' =>
      resume handlers (l.loops loops) (l.settled ctx') := by
  cases left : ctx.input.drop ctx.idx with
  | nil =>
      rw [left] at looks
      cases looks
      exact goes.elim
  | cons c cs =>
      by_cases zero : c = 0
      · subst zero
        rw [left] at looks
        cases loops with
        | nil =>
            cases looks
            exact goes.elim
        | cons k loops =>
            have lapse : l = .lapse := by cases k <;> exact looks.symm
            subst lapse
            exact resume_nul left
      · have turns := turnBody_look handlers loops left zero
        rw [← left, looks] at turns
        cases l with
        | finished | lapse => exact turns.elim
        | cut | reject => exact goes.elim
        | pass st => exact resume_next (running_eq handlers loops ctx) left zero turns
        | key | string | number | token => exact resume_told left zero turns
        | enter k => exact resume_entered left zero turns
        | leave =>
            cases loops with
            | nil => exact absurd looks (look_top_stays _ _)
            | cons k loops => exact resume_left left zero turns

end MnCommon.JsonParser
