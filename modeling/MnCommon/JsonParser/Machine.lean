import MnCommon.JsonParser.Accept

/-! The two recursive loops as a machine that keeps a stack of loops. -/

namespace MnCommon.JsonParser

variable {U A : Type} {handlers : JsonHandlers U A} {ctx ctx' ctx₁ : JsonCtx U A} {slot : Slot U A}
  {obj obj' array array' : Parser U A} {rest : List UInt8} {c : UInt8} {fuel : Nat} {first : Opening}

/-! The fuel is of no account. -/

/-- Two parsers do the same behind the index. -/
def Behind (ctx : JsonCtx U A) (parse parse' : Parser U A) : Prop :=
  ∀ ctx', ctx'.input = ctx.input → ctx.idx < ctx'.idx → parse ctx' = parse' ctx'

/-- How the results of a loop are seen from the loop around it. -/
def nestedLabel (label : Nat → Failure → Failure) (parse : Parser U A) : Parser U A :=
  fun ctx => labelled (label 4) (parse ctx)

theorem labelled_same (parse : Parse U A (JsonCtx U A)) : labelled (fun res => res) parse = parse := by
  cases parse with
  | error failed =>
      rcases failed with ⟨res, ctx⟩
      by_cases fuel : res = .outOfFuel <;> simp [labelled, Except.mapError, fuel]
  | ok ctx => rfl

theorem openObject_eq {inner : JsonHandler U A} {label : Nat → Failure → Failure} :
    openObject handlers inner label obj ctx = openObject handlers inner label .ok ctx >>= obj := by
  simp only [openObject, bind_assoc]
  rfl

theorem openArray_eq {inner : JsonHandler U A} {label : Nat → Failure → Failure} :
    openArray handlers inner label array ctx =
      openArray handlers inner label .ok ctx >>= nestedLabel label array := by
  simp only [openArray, bind_assoc]
  rfl

theorem openObject_congr {inner : JsonHandler U A} {label : Nat → Failure → Failure} (same : Behind ctx obj obj') :
    openObject handlers inner label obj ctx = openObject handlers inner label obj' ctx := by
  rw [openObject_eq, @openObject_eq _ _ _ _ obj']
  cases opened : openObject handlers inner label .ok ctx with
  | error failed => rfl
  | ok ctx₁ =>
      rcases openObject_ok opened with ⟨ctx₂, inside, input, idx, -, -⟩
      cases inside
      exact same ctx₁ input (by omega)

theorem openArray_congr {inner : JsonHandler U A} {label : Nat → Failure → Failure} (same : Behind ctx array array') :
    openArray handlers inner label array ctx = openArray handlers inner label array' ctx := by
  rw [openArray_eq, @openArray_eq _ _ _ _ array']
  cases opened : openArray handlers inner label .ok ctx with
  | error failed => rfl
  | ok ctx₁ =>
      rcases openArray_ok opened with ⟨ctx₂, inside, input, idx, -, -⟩
      cases inside
      exact congrArg (labelled (label 4)) (same ctx₁ input (by omega))

variable (handlers) (slot) (first) in
theorem jsonParseValue_congr (objSame : Behind ctx obj obj') (arraySame : Behind ctx array array') :
    jsonParseValue handlers slot obj array ctx first = jsonParseValue handlers slot obj' array' ctx first := by
  cases first with
  | object => exact openObject_congr objSame
  | array => exact openArray_congr arraySame
  | _ => rfl

theorem objBody_congr (objSame : Behind ctx obj obj') (arraySame : Behind ctx array array') :
    objBody handlers obj array c ctx = objBody handlers obj' array' c ctx := by
  have value (first : Opening) := jsonParseValue_congr handlers (memberSlot handlers) first
    objSame arraySame
  cases st : ctx.st <;> simp only [objBody, st, value]

theorem arrayBody_congr (objSame : Behind ctx obj obj') (arraySame : Behind ctx array array') :
    arrayBody handlers obj array c ctx = arrayBody handlers obj' array' c ctx := by
  have value (first : Opening) := jsonParseValue_congr handlers (itemSlot handlers) first
    objSame arraySame
  cases st : ctx.st <;> simp only [arrayBody, st, value]

theorem topBody_congr (objSame : Behind ctx obj obj') (arraySame : Behind ctx array array') :
    topBody handlers obj array c ctx = topBody handlers obj' array' c ctx := by
  rw [topBody, topBody, openObject_congr objSame, openArray_congr arraySame]

theorem iterate_congr {body body' : Body U A} {again again' : Parser U A}
    (same : ∀ c rest, ctx.input.drop ctx.idx = c :: rest → body c ctx = body' c ctx ∧ Behind ctx again again')
    (onward : ∀ c rest ctx₁, ctx.input.drop ctx.idx = c :: rest → body c ctx = .ok (.next ctx₁) → Onward ctx ctx₁) :
    iterate body again ctx = iterate body' again' ctx := by
  rw [iterate, iterate, ← List.head?_drop]
  cases left : ctx.input.drop ctx.idx with
  | nil => rfl
  | cons c rest =>
      rcases same c rest left with ⟨bodies, later⟩
      simp only [List.head?_cons]
      by_cases zero : c = 0
      · rw [if_pos zero, if_pos zero]
      · rw [if_neg zero, if_neg zero, ← bodies]
        cases turn : body c ctx with
        | error failed => rfl
        | ok turn' =>
            cases turn' with
            | leave ctx₁ => rfl
            | next ctx₁ =>
                have further := onward c rest ctx₁ left turn
                exact later _ further.input (Nat.lt_succ_of_le further.idx)

/-- Fuel for as many characters as are left gives what more of it gives. -/
def Settled (fuel : Nat) (parse parse' : Parser U A) : Prop :=
  ∀ ctx, (ctx.input.drop ctx.idx).length < fuel → parse ctx = parse' ctx

theorem Settled.behind (settled : Settled fuel obj obj') (left : ctx.input.drop ctx.idx = c :: rest)
    (shorter : (ctx.input.drop ctx.idx).length < fuel + 1) : Behind ctx obj obj' := by
  intro ctx' input idx
  apply settled
  rw [input, List.length_drop]
  rw [List.length_drop] at shorter
  have length := congrArg List.length left
  rw [List.length_drop, List.length_cons] at length
  omega

theorem loops_settled (handlers : JsonHandlers U A) (fuel : Nat) :
    Settled fuel (jsonParseObj handlers fuel) (jsonParseObj handlers (fuel + 1)) ∧
      Settled fuel (jsonParseArray handlers fuel) (jsonParseArray handlers (fuel + 1)) := by
  induction fuel with
  | zero =>
      constructor
      · exact fun _ shorter => absurd shorter (Nat.not_lt_zero _)
      · exact fun _ shorter => absurd shorter (Nat.not_lt_zero _)
  | succ fuel ih =>
      rcases ih with ⟨obj, array⟩
      rcases loops_sound handlers fuel with ⟨objSound, arraySound⟩
      constructor
      · intro ctx shorter
        apply iterate_congr
        · intro c rest left
          have objSame := obj.behind left shorter
          exact ⟨objBody_congr objSame (array.behind left shorter), objSame⟩
        · exact fun c rest ctx₁ left turn => (obj_next_sound objSound arraySound left turn).1
      · intro ctx shorter
        apply iterate_congr
        · intro c rest left
          have arraySame := array.behind left shorter
          exact ⟨arrayBody_congr (obj.behind left shorter) arraySame, arraySame⟩
        · exact fun c rest ctx₁ left turn => (array_next_sound objSound arraySound left turn).1

theorem topLoop_settled (handlers : JsonHandlers U A) (fuel : Nat) :
    Settled fuel (topLoop handlers fuel) (topLoop handlers (fuel + 1)) := by
  induction fuel with
  | zero => exact fun _ shorter => absurd shorter (Nat.not_lt_zero _)
  | succ fuel ih =>
      rcases loops_settled handlers fuel with ⟨obj, array⟩
      rcases loops_sound handlers fuel with ⟨objSound, arraySound⟩
      intro ctx shorter
      apply iterate_congr
      · intro c rest left
        exact ⟨topBody_congr (obj.behind left shorter) (array.behind left shorter), ih.behind left shorter⟩
      · intro c rest ctx₁ left turn
        rcases topBody_ok objSound arraySound left turn with ⟨ctx₂, same, step⟩
        cases same
        exact step.onward

inductive Container where
  | object | array
  deriving DecidableEq

/-- A loop with fuel for all that is left. -/
def loop (handlers : JsonHandlers U A) (k : Container) : Parser U A := fun ctx =>
  match k with
  | .object => jsonParseObj handlers ((ctx.input.drop ctx.idx).length + 1) ctx
  | .array => jsonParseArray handlers ((ctx.input.drop ctx.idx).length + 1) ctx

def top (handlers : JsonHandlers U A) : Parser U A := fun ctx =>
  topLoop handlers ((ctx.input.drop ctx.idx).length + 1) ctx

theorem settled_more {parse : Nat → Parser U A} (settled : ∀ fuel, Settled fuel (parse fuel) (parse (fuel + 1)))
    (more : Nat) (shorter : (ctx.input.drop ctx.idx).length < fuel) : parse fuel ctx = parse (fuel + more) ctx := by
  induction more with
  | zero => rfl
  | succ more ih => exact ih.trans (settled _ ctx (Nat.lt_add_right more shorter))

theorem settled_least {parse : Nat → Parser U A} (settled : ∀ fuel, Settled fuel (parse fuel) (parse (fuel + 1)))
    (shorter : (ctx.input.drop ctx.idx).length < fuel) :
    parse fuel ctx = parse ((ctx.input.drop ctx.idx).length + 1) ctx := by
  have least := settled_more settled (fuel - ((ctx.input.drop ctx.idx).length + 1))
    (Nat.lt_succ_self (ctx.input.drop ctx.idx).length)
  rw [least]
  congr 1
  omega

variable (handlers) in
theorem obj_settled (fuel : Nat) : Settled fuel (jsonParseObj handlers fuel) (loop handlers .object) :=
  fun _ shorter => settled_least (fun fuel => (loops_settled handlers fuel).1) shorter

variable (handlers) in
theorem array_settled (fuel : Nat) : Settled fuel (jsonParseArray handlers fuel) (loop handlers .array) :=
  fun _ shorter => settled_least (fun fuel => (loops_settled handlers fuel).2) shorter

theorem top_settled (fuel : Nat) : Settled fuel (topLoop handlers fuel) (top handlers) :=
  fun _ shorter => settled_least (fun fuel => topLoop_settled handlers fuel) shorter

def bodyOf (handlers : JsonHandlers U A) : Container → Body U A
  | .object => objBody handlers (loop handlers .object) (loop handlers .array)
  | .array => arrayBody handlers (loop handlers .object) (loop handlers .array)

theorem loop_eq (handlers : JsonHandlers U A) (k : Container) (ctx : JsonCtx U A) :
    loop handlers k ctx = iterate (bodyOf handlers k) (loop handlers k) ctx := by
  have fuel := Nat.lt_succ_self (ctx.input.drop ctx.idx).length
  rcases loops_sound handlers (ctx.input.drop ctx.idx).length with ⟨objSound, arraySound⟩
  cases k with
  | object =>
      apply iterate_congr
      · intro c rest left
        have same := (obj_settled handlers _).behind left fuel
        exact ⟨objBody_congr same ((array_settled handlers _).behind left fuel), same⟩
      · exact fun c rest ctx₁ left turn => (obj_next_sound objSound arraySound left turn).1
  | array =>
      apply iterate_congr
      · intro c rest left
        have same := (array_settled handlers _).behind left fuel
        exact ⟨arrayBody_congr ((obj_settled handlers _).behind left fuel) same, same⟩
      · exact fun c rest ctx₁ left turn => (array_next_sound objSound arraySound left turn).1

theorem top_eq (handlers : JsonHandlers U A) (ctx : JsonCtx U A) :
    top handlers ctx =
      iterate (topBody handlers (loop handlers .object) (loop handlers .array)) (top handlers) ctx := by
  have fuel := Nat.lt_succ_self (ctx.input.drop ctx.idx).length
  rcases loops_sound handlers (ctx.input.drop ctx.idx).length with ⟨objSound, arraySound⟩
  apply iterate_congr
  · intro c rest left
    exact ⟨topBody_congr ((obj_settled handlers _).behind left fuel) ((array_settled handlers _).behind left fuel),
      (top_settled _).behind left fuel⟩
  · intro c rest ctx₁ left turn
    rcases topBody_ok objSound arraySound left turn with ⟨ctx₂, same, step⟩
    cases same
    exact step.onward

theorem jsonParse_top (handlers : JsonHandlers U A) (text : List UInt8) (ctx : JsonCtx U A) :
    jsonParse handlers text ctx = top handlers { ctx with input := text } := by
  apply top_settled
  change (text.drop ctx.idx).length < text.length + 1
  rw [List.length_drop]
  exact Nat.lt_succ_of_le (Nat.sub_le _ _)

/-! The stack of the loops, with the innermost one first. -/

/-- An array has a result of its own for every failure of an array that it holds. -/
def betweenLabel (outer inner : Container) : Failure → Failure :=
  if outer = .array ∧ inner = .array then fun _ => .array 4 else fun res => res

def running (handlers : JsonHandlers U A) : List Container → Parser U A
  | [] => top handlers
  | k :: _ => loop handlers k

/-- What is left to do when the innermost loop is done. -/
def finish (handlers : JsonHandlers U A) : List Container → Parse U A (JsonCtx U A) → Parse U A (JsonCtx U A)
  | [], parse => parse
  | [_], parse => do
      let ctx ← parse
      top handlers { ctx with idx := ctx.idx + 1 }
  | inner :: outer :: loops, parse =>
      finish handlers (outer :: loops) do
        let ctx ← labelled (betweenLabel outer inner) parse
        loop handlers outer { ctx with idx := ctx.idx + 1 }

def resume (handlers : JsonHandlers U A) (loops : List Container) : Parser U A := fun ctx =>
  finish handlers loops (running handlers loops ctx)

/-- What becomes of a failure on its way out. -/
def relabel : List Container → Failure → Failure
  | inner :: outer :: loops, res => relabel (outer :: loops) (betweenLabel outer inner res)
  | _, res => res

variable {loops : List Container} {k : Container}

theorem betweenLabel_other {outer inner : Container} {res : Failure} (other : res ≠ .outOfFuel) :
    betweenLabel outer inner res ≠ .outOfFuel := by
  rw [betweenLabel]
  split_ifs
  · simp
  · exact other

theorem finish_error {res : Failure} (other : res ≠ .outOfFuel) :
    finish handlers loops (.error (res, ctx)) = .error (relabel loops res, ctx) := by
  induction loops generalizing res with
  | nil => rfl
  | cons inner loops ih =>
      cases loops with
      | nil => rfl
      | cons outer loops =>
          rw [finish, relabel, ← ih (betweenLabel_other other)]
          simp [labelled, Except.mapError, other, bind, Except.bind]

theorem finish_ok : finish handlers (k :: loops) (.ok ctx) = resume handlers loops { ctx with idx := ctx.idx + 1 } := by
  cases loops <;> rfl

/-- A turn that stays in its loop. -/
theorem resume_next {body : Body U A}
    (again : running handlers loops ctx = iterate body (running handlers loops) ctx)
    (left : ctx.input.drop ctx.idx = c :: rest) (nonzero : c ≠ 0) (turn : body c ctx = .ok (.next ctx₁)) :
    resume handlers loops ctx = resume handlers loops { ctx₁ with idx := ctx₁.idx + 1 } := by
  rw [resume, again, iterate_next (Faces.of_left left) nonzero turn]
  rfl

theorem resume_leave (left : ctx.input.drop ctx.idx = c :: rest) (nonzero : c ≠ 0)
    (turn : bodyOf handlers k c ctx = .ok (.leave ctx₁)) :
    resume handlers (k :: loops) ctx = resume handlers loops { ctx₁ with idx := ctx₁.idx + 1 } := by
  rw [resume, running, loop_eq, iterate_leave (Faces.of_left left) nonzero turn, finish_ok]

/-- The label of an array stands for that of the machine. -/
def innerLabel : List Container → Container → Failure → Failure
  | [], _ => fun res => res
  | outer :: _, inner => betweenLabel outer inner

theorem finish_enter (ctx : JsonCtx U A) :
    finish handlers loops (labelled (innerLabel loops k) (loop handlers k ctx) >>= fun ctx₁ =>
      running handlers loops { ctx₁ with idx := ctx₁.idx + 1 }) = resume handlers (k :: loops) ctx := by
  cases loops with
  | nil =>
      change labelled (fun res => res) (loop handlers k ctx) >>= _ = _
      rw [labelled_same]
      rfl
  | cons outer loops => rfl

end MnCommon.JsonParser
