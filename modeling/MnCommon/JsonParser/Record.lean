import MnCommon.JsonParser.Compare

/-! The calls of a parse, noted down. -/

namespace MnCommon.JsonParser

/-- A call with its result, or a place for one where no callback is set. -/
structure Call (U : Type) where
  callback : JsonCallback
  udata : U
  event : Event
  result : Option Int
  deriving DecidableEq

variable {U A : Type}

def JsonCtx.erased (ctx : JsonCtx U (A × List (Call U))) : JsonCtx U A := { ctx with world := ctx.world.1 }

def JsonHandler.recorded (k : JsonCallback) (h : JsonHandler U A) : JsonHandler U (A × List (Call U)) where
  cb := some fun ctx udata =>
    match h.cb with
    | none => (0, ctx.stack, ctx.world.1, ctx.world.2 ++ [⟨k, udata, observe k ctx, none⟩])
    | some cb =>
        let (res, stack, world) := cb ctx.erased udata
        (res, stack, world, ctx.world.2 ++ [⟨k, udata, observe k ctx, some res⟩])
  udata := h.udata

def JsonHandlers.recorded (handlers : JsonHandlers U A) : JsonHandlers U (A × List (Call U)) where
  ostart := handlers.ostart.recorded .ostart
  ostop := handlers.ostop.recorded .ostop
  astart := handlers.astart.recorded .astart
  astop := handlers.astop.recorded .astop
  key := handlers.key.recorded .key
  value := handlers.value.recorded .value
  item := handlers.item.recorded .item

/-- The call that is made at a site. -/
structure Meets (handlers : JsonHandlers U A) (site : Site) (call : Call U) : Prop where
  callback : call.callback = site.notice.callback
  udata : call.udata = (handlers.get site.notice.data).udata
  event : call.event = site.event
  unset : call.result = none ↔ (handlers.get site.notice.callback).cb = none
  returned : ∀ res, call.result = some res → ∃ cb ctx udata, (handlers.get site.notice.callback).cb = some cb ∧
    res = (cb ctx udata).1

/-- The calls go along the sites, up to one that does not return 0. -/
inductive Heard (handlers : JsonHandlers U A) : List Site → List (Call U) → Option (Site × Int) → Prop where
  | nil : Heard handlers [] [] none
  | next {site : Site} {sites : List Site} {call : Call U} {calls : List (Call U)} {stop : Option (Site × Int)} :
      Meets handlers site call → call.result.getD 0 = 0 → Heard handlers sites calls stop →
      Heard handlers (site :: sites) (call :: calls) stop
  | stop {site : Site} {sites : List Site} {call : Call U} {res : Int} : Meets handlers site call →
      call.result = some res → res ≠ 0 → Heard handlers (site :: sites) [call] (some (site, res))

variable {handlers : JsonHandlers U A} {ctx ctx' : JsonCtx U A} {loops : List Container} {k : Container} {l : Look}
  {r : Reader} {sites sites' : List Site} {calls calls' : List (Call U)} {stop : Option (Site × Int)}

theorem Heard.append (first : Heard handlers sites calls none) (more : Heard handlers sites' calls' stop) :
    Heard handlers (sites ++ sites') (calls ++ calls') stop := by
  generalize none : Option.none = stopped at first
  induction first with
  | nil => exact more
  | next meets zero _ ih => exact .next meets zero (ih none)
  | stop => cases none

theorem Heard.stopped {site : Site} {res : Int} (first : Heard handlers sites calls (some (site, res))) :
    Heard handlers (sites ++ sites') calls (some (site, res)) := by
  generalize some : Option.some (site, res) = stopped at first
  induction first with
  | nil => cases some
  | next meets zero _ ih => exact .next meets zero (ih some)
  | stop meets result nonzero =>
      cases some
      exact .stop meets result nonzero

theorem recorded_get (handlers : JsonHandlers U A) (k : JsonCallback) :
    handlers.recorded.get k = (handlers.get k).recorded k := by
  cases k <;> rfl

/-- The call that a client gets. -/
def callOf (handlers : JsonHandlers U A) (n : Notice) (event : Event) (ctx : JsonCtx U A) : Call U where
  callback := n.callback
  udata := (handlers.get n.data).udata
  event := event
  result := (handlers.get n.callback).cb.map fun cb => (cb ctx (handlers.get n.data).udata).1

theorem callOf_meets (site : Site) (ctx : JsonCtx U A) :
    Meets handlers site (callOf handlers site.notice site.event ctx) where
  callback := rfl
  udata := rfl
  event := rfl
  unset := by simp [callOf]
  returned res result := by
    rcases Option.map_eq_some_iff.mp result with ⟨cb, set, rfl⟩
    exact ⟨cb, ctx, _, set, rfl⟩

/-- A call goes on if it returns 0. -/
def afterCall (call : Call U) (ctx : JsonCtx U A) : Parse U A (JsonCtx U A) :=
  if call.result.getD 0 = 0 then .ok ctx else .error (.callback (call.result.getD 0), ctx)

/-- A call with its note, and the same call without it. -/
theorem recorded_call (n : Notice) (ctx : JsonCtx U (A × List (Call U))) :
    let call := callOf handlers n (observe n.callback ctx) ctx.erased
    ∃ stack world,
      (handlers.recorded.noticed n).call ctx =
        afterCall call { ctx with stack := stack, world := (world, ctx.world.2 ++ [call]) } ∧
      (handlers.noticed n).call ctx.erased = afterCall call { ctx.erased with stack := stack, world := world } := by
  cases cb : (handlers.get n.callback).cb with
  | none =>
      refine ⟨ctx.stack, ctx.world.1, ?_, ?_⟩
      · simp [JsonHandlers.noticed, recorded_get, JsonHandler.recorded, JsonHandler.call, afterCall, callOf, cb]
      · simp [JsonHandlers.noticed, JsonHandler.call, afterCall, callOf, cb, JsonCtx.erased]
  | some cb' =>
      rcases ran : cb' ctx.erased (handlers.get n.data).udata with ⟨res, stack, world⟩
      refine ⟨stack, world, ?_, ?_⟩
      · by_cases zero : res = 0 <;>
          simp [JsonHandlers.noticed, recorded_get, JsonHandler.recorded, JsonHandler.call, afterCall, callOf, cb, ran,
            zero]
      · by_cases zero : res = 0 <;>
          simp [JsonHandlers.noticed, JsonHandler.call, afterCall, callOf, cb, ran, zero]

theorem labelled_failed {label : Failure → Failure} {res : Int} (ctx : JsonCtx U A) :
    labelled label (.error (.callback res, ctx)) = .error (label (.callback res), ctx) := by
  simp [labelled, Except.mapError]

theorem tell_heard (ns : List Notice) (ctx : JsonCtx U (A × List (Call U))) (event : JsonCallback → Event)
    (seen : ∀ n ∈ ns, observe n.callback ctx = event n.callback) :
    ∃ calls stack world,
      (Heard handlers (ns.map fun n => ⟨loops, n, event n.callback⟩) calls none ∧
        tell handlers.recorded ns ctx = .ok { ctx with stack := stack, world := (world, ctx.world.2 ++ calls) }) ∨
      ∃ site res, site.loops = loops ∧
        Heard handlers (ns.map fun n => ⟨loops, n, event n.callback⟩) calls (some (site, res)) ∧
        tell handlers.recorded ns ctx = .error (site.notice.label (.callback res),
          { ctx with stack := stack, world := (world, ctx.world.2 ++ calls) }) := by
  induction ns generalizing ctx with
  | nil => exact ⟨[], ctx.stack, ctx.world.1, .inl ⟨.nil, by simp [tell]⟩⟩
  | cons n ns ih =>
      rcases List.forall_mem_cons.mp seen with ⟨here, others⟩
      rcases @recorded_call U A handlers n ctx with ⟨stack, world, ran, -⟩
      have meets : Meets handlers ⟨loops, n, event n.callback⟩
        (callOf handlers n (observe n.callback ctx) ctx.erased) := by
        rw [here]
        exact callOf_meets ⟨loops, n, event n.callback⟩ ctx.erased
      generalize callOf handlers n (observe n.callback ctx) ctx.erased = call at ran meets
      rw [afterCall] at ran
      by_cases zero : call.result.getD 0 = 0
      · rw [if_pos zero] at ran
        rcases ih { ctx with stack := stack, world := (world, ctx.world.2 ++ [call]) } others with
          ⟨calls, stack', world', ⟨heard, told⟩ | ⟨site, res, loops, heard, told⟩⟩
        · refine ⟨call :: calls, stack', world', .inl ⟨.next meets zero heard, ?_⟩⟩
          rw [tell, ran]
          change tell handlers.recorded ns _ = _
          rw [told, List.append_assoc]
          rfl
        · refine ⟨call :: calls, stack', world', .inr ⟨site, res, loops, .next meets zero heard, ?_⟩⟩
          rw [tell, ran]
          change tell handlers.recorded ns _ = _
          rw [told, List.append_assoc]
          rfl
      · rw [if_neg zero] at ran
        refine ⟨[call], stack, world, .inr ⟨⟨loops, n, event n.callback⟩, call.result.getD 0, rfl, ?_, ?_⟩⟩
        · refine .stop meets ?_ zero
          cases result : call.result with
          | none =>
              rw [result] at zero
              exact absurd rfl zero
          | some res => rfl
        · rw [tell, ran, labelled_failed]
          rfl

/-- How a parse ends of which all the calls return 0. -/
def Stops (r : Reader) (res : Option Failure) : Prop :=
  match r.look with
  | .finished => res = none
  | .cut => res = some (relabel r.loops .needMore)
  | .reject failed => res = some (relabel r.loops failed)
  | _ => False

/-- What is known of the result from the calls. -/
def Outcome (r : Reader) (res : Option Failure) : Option (Site × Int) → Prop
  | none => Stops r res
  | some (site, returned) => res = some (relabel site.loops (site.notice.label (.callback returned)))

variable (handlers) in
theorem resume_heard (fuel : Nat) (r : Reader) (ctx : JsonCtx U (A × List (Call U))) (stands : Stands r ctx)
    (enough : r.rest.length < fuel) : ∃ calls stop, Heard handlers (r.calls fuel) calls stop ∧
      (leftBy (resume handlers.recorded r.loops ctx)).world.2 = ctx.world.2 ++ calls ∧
      Outcome (r.last fuel) (resultOf (resume handlers.recorded r.loops ctx)) stop := by
  induction fuel generalizing r ctx with
  | zero => exact absurd enough (Nat.not_lt_zero _)
  | succ fuel ih =>
      have looks : look r.loops ctx.st (ctx.input.drop ctx.idx) = r.look := by
        rw [stands.st, stands.left]
        rfl
      by_cases goes : r.look.Goes
      · rw [Reader.calls, Reader.last, if_pos goes, if_pos goes, resume_look looks goes, Look.told, stands.st]
        rcases @tell_heard U A handlers r.loops (r.look.notices r.loops r.st) (r.look.ready r.loops ctx)
          (r.look.event r.loops r.nest) (fun n told => ready_seen stands told) with
          ⟨calls, stack, world, ⟨heard, told⟩ | ⟨site, res, loops, heard, told⟩⟩
        · rw [told, passOn]
          have shorter := after_shorter goes
          rcases ih r.after _ (stands_after stands goes stack
            (world, (r.look.ready r.loops ctx).world.2 ++ calls)) (by omega) with ⟨calls', stop, heard', world', outcome⟩
          refine ⟨calls ++ calls', stop, heard.append heard', ?_, outcome⟩
          refine world'.trans ?_
          rw [settled_world]
          change (r.look.ready r.loops ctx).world.2 ++ calls ++ calls' = _
          rw [ready_world, List.append_assoc]
        · rw [told, passOn]
          refine ⟨calls, some (site, res), heard.stopped, ?_, ?_⟩
          · change (r.look.ready r.loops ctx).world.2 ++ calls = _
            rw [ready_world]
          · change some (relabel r.loops _) = some (relabel site.loops _)
            rw [loops]
      · rw [Reader.calls, Reader.last, if_neg goes, if_neg goes]
        refine ⟨[], none, .nil, ?_⟩
        rw [List.append_nil]
        cases stuck : r.look with
        | finished =>
            have run := resume_finished handlers.recorded (looks.trans stuck)
            refine ⟨by rw [run]; rfl, ?_⟩
            rw [Outcome, Stops, stuck, run]
            rfl
        | cut =>
            rcases resume_cut handlers.recorded (looks.trans stuck) with ⟨ctx', run, cut⟩
            refine ⟨by rw [run]; exact congrArg Prod.snd cut.world, ?_⟩
            rw [Outcome, Stops, stuck, run]
            rfl
        | reject res =>
            have run := resume_reject handlers.recorded (looks.trans stuck)
            refine ⟨by rw [run]; rfl, ?_⟩
            rw [Outcome, Stops, stuck, run]
            rfl
        | _ =>
            rw [stuck] at goes
            exact absurd trivial goes

/-! The notes change nothing. -/

theorem tokenValue_erased (tmp : Nat) (ctx : JsonCtx U (A × List (Call U))) :
    (tokenValue tmp ctx).erased = tokenValue tmp ctx.erased := by
  simp only [tokenValue, apply_ite JsonCtx.erased]
  rfl

theorem ready_erased (l : Look) (loops : List Container) (ctx : JsonCtx U (A × List (Call U))) :
    (l.ready loops ctx).erased = l.ready loops ctx.erased := by
  cases l with
  | number chars => cases chars <;> rfl
  | token chars => exact congrArg JsonCtx.inward (tokenValue_erased _ _)
  | _ => rfl

theorem recorded_simulation (handlers : JsonHandlers U A) :
    Simulation handlers.recorded handlers (fun ctx ctx' => ctx.erased = ctx') (fun _ ctx ctx' => ctx.erased = ctx')
      (fun ctx ctx' => ctx.world.1 = ctx'.world) where
  place := by
    rintro ctx _ rfl
    exact ⟨rfl, rfl, rfl⟩
  ready := by
    rintro ctx _ loops l rfl - -
    exact ready_erased l loops ctx
  call := by
    rintro loops st l ctx _ n - rfl
    rcases @recorded_call U A handlers n ctx with ⟨stack, world, run, run'⟩
    generalize callOf handlers n (observe n.callback ctx) ctx.erased = call at run run'
    rw [afterCall] at run run'
    by_cases zero : call.result.getD 0 = 0
    · rw [if_pos zero] at run run'
      exact .inl ⟨_, _, run, run', rfl⟩
    · rw [if_neg zero] at run run'
      exact .inr ⟨_, _, _, run, run', rfl⟩
  settled := by
    rintro ctx _ l rfl
    cases l <;> rfl
  finished := by
    rintro ctx _ n rfl
    rfl
  rejected := by
    rintro ctx _ rfl
    rfl
  cut := by
    rintro ctx _ ctx₁ ctx₁' rfl cut cut'
    exact (congrArg Prod.fst cut.world).trans cut'.world.symm

/-- The parse itself goes as if nothing were noted down. -/
theorem recorded_same (handlers : JsonHandlers U A) (text : List UInt8) (ctx : JsonCtx U (A × List (Call U)))
    (st : ctx.st = .start) (idx : ctx.idx = 0) (nest : ctx.nest = -1) :
    Same (fun ctx ctx' => ctx.world.1 = ctx'.world) (jsonParse handlers.recorded text ctx)
      (jsonParse handlers text ctx.erased) :=
  (recorded_simulation handlers).jsonParse st idx nest rfl

/-- The calls that a parse makes, and the places where it would make one if the callback were set. -/
def callsMade (handlers : JsonHandlers U A) (text : List UInt8) (ctx : JsonCtx U A) : List (Call U) :=
  (leftBy (jsonParse handlers.recorded text { ctx with world := (ctx.world, []) })).world.2

/-- The calls of a parse, and what comes of them. -/
theorem jsonParse_heard (handlers : JsonHandlers U A) (text : List UInt8) (ctx : JsonCtx U A) (st : ctx.st = .start)
    (idx : ctx.idx = 0) (nest : ctx.nest = -1) :
    ∃ stop, Heard handlers (callSites text) (callsMade handlers text ctx) stop ∧
      Outcome (lastReader text) (resultOf (jsonParse handlers text ctx)) stop := by
  let noted : JsonCtx U (A × List (Call U)) := { ctx with world := (ctx.world, []) }
  have stands : Stands (Reader.start text) { noted with input := text } := stands_start st idx nest
  rcases resume_heard handlers (text.length + 1) (Reader.start text) _ stands (Nat.lt_succ_self _) with
    ⟨calls, stop, heard, made, outcome⟩
  change (leftBy (top handlers.recorded _)).world.2 = _ at made
  change Outcome _ (resultOf (top handlers.recorded _)) _ at outcome
  rw [← jsonParse_top] at made outcome
  have made' : callsMade handlers text ctx = calls := made
  rw [(recorded_same handlers text noted st idx nest).result] at outcome
  exact ⟨stop, made' ▸ heard, outcome⟩

/-- Callbacks that return 0. -/
def Passing (handlers : JsonHandlers U A) : Prop :=
  ∀ k cb, (handlers.get k).cb = some cb → ∀ ctx udata, (cb ctx udata).1 = 0

theorem Heard.passing (passing : Passing handlers) (heard : Heard handlers sites calls stop) : stop = none := by
  induction heard with
  | nil => rfl
  | next _ _ _ ih => exact ih
  | stop meets result nonzero =>
      rcases meets.returned _ result with ⟨cb, ctx, udata, set, returned⟩
      exact absurd (returned.trans (passing _ cb set ctx udata)) nonzero

theorem Heard.complete (heard : Heard handlers sites calls none) : List.Forall₂ (Meets handlers) sites calls := by
  generalize none : Option.none = stopped at heard
  induction heard with
  | nil => exact .nil
  | next meets _ _ ih => exact .cons meets (ih none)
  | stop => cases none

theorem callbacks_of (complete : List.Forall₂ (Meets handlers) sites calls) :
    calls.map (·.callback) = sites.map (·.notice.callback) := by
  induction complete with
  | nil => rfl
  | cons meets _ ih => rw [List.map_cons, List.map_cons, meets.callback, ih]

theorem events_of (complete : List.Forall₂ (Meets handlers) sites calls) :
    calls.map (·.event) = sites.map (·.event) := by
  induction complete with
  | nil => rfl
  | cons meets _ ih => rw [List.map_cons, List.map_cons, meets.event, ih]

end MnCommon.JsonParser
