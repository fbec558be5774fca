import MnCommon.JsonParser.Propagation

/-! A parse of a longer text with a context that wants more. -/

namespace MnCommon.JsonParser

open Grammars (Closed)

variable {U A : Type} {handlers : JsonHandlers U A} {ctx ctx' ctx₁ : JsonCtx U A} {loops : List Container} {r : Reader}
  {sites : List Site} {calls : List (Call U)} {stop : Option (Site × Int)}

/-! What the reader passes does not depend on what comes later. -/

theorem stringBody_more {cs body : List UInt8} (found : stringBody cs = some body) (more : List UInt8) :
    stringBody (cs ++ more) = some body := by
  rcases stringBody_some found with ⟨closed, rest, rfl⟩
  rw [List.append_assoc]
  exact stringBody_closed closed (rest ++ more)

theorem wordOf_more {P : UInt8 → Prop} [DecidablePred P] {cs word : List UInt8} (found : wordOf P cs = some word)
    (more : List UInt8) : wordOf P (cs ++ more) = some word := by
  rcases wordOf_some found with ⟨all, d, rest, rfl, ends⟩
  rw [List.append_assoc]
  exact wordOf_run all ends

theorem lookKey_more (cs more : List UInt8) : lookKey cs = .cut ∨ lookKey (cs ++ more) = lookKey cs := by
  cases found : stringBody cs with
  | none => exact .inl (by rw [lookKey, found]; rfl)
  | some body => exact .inr (by rw [lookKey, lookKey, found, stringBody_more found])

theorem lookValue_more (ch : UInt8) (cs more : List UInt8) (first : Opening) :
    lookValue ch cs first = .cut ∨ lookValue ch (cs ++ more) first = lookValue ch cs first := by
  cases first with
  | object | array => exact .inr rfl
  | string =>
      cases found : stringBody cs with
      | none => exact .inl (by rw [lookValue, found]; rfl)
      | some body => exact .inr (by rw [lookValue, lookValue, found, stringBody_more found])
  | number =>
      cases found : wordOf NumChar cs with
      | none => exact .inl (by rw [lookValue, found]; rfl)
      | some word => exact .inr (by rw [lookValue, lookValue, found, wordOf_more found])
  | token =>
      cases found : wordOf TokChar cs with
      | none => exact .inl (by rw [lookValue, found]; rfl)
      | some word => exact .inr (by rw [lookValue, lookValue, found, wordOf_more found])

theorem lookObject_more (st : JsonState) (ch : UInt8) (cs more : List UInt8) :
    lookObject st ch cs = .cut ∨ lookObject st ch (cs ++ more) = lookObject st ch cs := by
  cases st with
  | ostart =>
      simp only [lookObject]
      split_ifs
      · exact .inr rfl
      · exact lookKey_more cs more
      · exact .inr rfl
  | eValue =>
      simp only [lookObject]
      cases opening ch with
      | none => exact .inr rfl
      | some first => exact lookValue_more ch cs more first
  | eNext =>
      simp only [lookObject]
      split_ifs
      · exact lookKey_more cs more
      · exact .inr rfl
  | _ => exact .inr rfl

theorem lookArray_more (st : JsonState) (ch : UInt8) (cs more : List UInt8) :
    lookArray st ch cs = .cut ∨ lookArray st ch (cs ++ more) = lookArray st ch cs := by
  cases st with
  | astart | eNext =>
      simp only [lookArray]
      split_ifs
      · exact .inr rfl
      · cases opening ch with
        | none => exact .inr rfl
        | some first => exact lookValue_more ch cs more first
  | _ => exact .inr rfl

theorem look_more {st : JsonState} {rest : List UInt8} (goes : (look loops st rest).Goes) (more : List UInt8) :
    look loops st (rest ++ more) = look loops st rest := by
  cases rest with
  | nil => exact goes.elim
  | cons ch cs =>
      cases loops with
      | nil => rfl
      | cons k outer =>
          cases k with
          | object =>
              rcases lookObject_more st ch cs more with cut | same
              · simp only [look, cut] at goes
                split_ifs at goes with zero
                · simp only [List.cons_append, look, if_pos zero]
                · exact goes.elim
              · exact if_congr Iff.rfl rfl same
          | array =>
              rcases lookArray_more st ch cs more with cut | same
              · simp only [look, cut] at goes
                split_ifs at goes with zero
                · simp only [List.cons_append, look, if_pos zero]
                · exact goes.elim
              · exact if_congr Iff.rfl rfl same

def Reader.extended (r : Reader) (more : List UInt8) : Reader := { r with rest := r.rest ++ more }

theorem Reader.within (goes : r.look.Goes) : r.look.width ≤ r.rest.length := by
  have passes := r.passes
  cases looks : r.look with
  | key body | string body =>
      rw [looks] at passes
      rcases passes with ⟨-, after, rest⟩
      simp [Look.width, rest]
  | number chars | token chars =>
      rw [looks] at passes
      rcases passes with ⟨c, cs, d, after, rfl, -, -, rest⟩
      simp [Look.width, rest]
  | _ =>
      have shorter := after_shorter goes
      exact Nat.lt_of_le_of_lt (Nat.zero_le _) shorter

theorem Reader.extended_look (goes : r.look.Goes) (more : List UInt8) : (r.extended more).look = r.look :=
  look_more goes more

theorem Reader.extended_after (goes : r.look.Goes) (more : List UInt8) :
    (r.extended more).after = r.after.extended more := by
  simp only [Reader.after, Reader.extended_look goes]
  simp only [Reader.extended, List.drop_append_of_le_length (Reader.within goes)]

theorem calls_extended (more : List UInt8) (fuel fuel' : Nat) (enough : r.rest.length < fuel)
    (enough' : (r.rest ++ more).length < fuel') : r.calls fuel <+: (r.extended more).calls fuel' := by
  induction fuel generalizing fuel' r with
  | zero => exact absurd enough (Nat.not_lt_zero _)
  | succ fuel ih =>
      cases fuel' with
      | zero => exact absurd enough' (Nat.not_lt_zero _)
      | succ fuel' =>
          rw [Reader.calls]
          split_ifs with goes
          · have shorter := after_shorter goes
            have sites : (r.extended more).sites = r.sites := by
              rw [Reader.sites, Reader.extended_look goes]
              rfl
            rw [Reader.calls, Reader.extended_look goes, if_pos goes, Reader.extended_after goes, sites]
            rw [List.length_append] at enough'
            refine (List.prefix_append_right_inj r.sites).mpr (ih fuel' (by omega) ?_)
            rw [List.length_append]
            omega
          · exact List.nil_prefix

theorem callSites_more (text more : List UInt8) : callSites text <+: callSites (text ++ more) :=
  calls_extended more _ _ (Nat.lt_succ_self _) (Nat.lt_succ_self _)

/-! A parse that fails has begun, and the next one finds nothing to do. -/

theorem begun_within (begun : r.loops ≠ [] → r.st ≠ .start) (inside : r.loops ≠ [] ∨ r.after.loops ≠ []) :
    r.after.st ≠ .start := by
  have passes := r.passes
  have same (loops : r.after.loops = r.loops) (st : r.after.st = r.st) : r.after.st ≠ .start := by
    rw [st]
    rw [loops, or_self] at inside
    exact begun inside
  cases looks : r.look with
  | pass st =>
      rw [looks] at passes
      have loops : r.after.loops = r.loops := by simp only [Reader.after, looks, Look.loops]
      have state : r.after.st = st := by simp only [Reader.after, looks, Look.state]
      rcases passes.2 with rfl | rfl | rfl
      · exact same loops state
      · rw [state]
        decide
      · rw [state]
        decide
  | enter k =>
      simp only [Reader.after, looks, Look.state]
      cases k <;> decide
  | leave =>
      rw [looks] at passes
      rcases passes with ⟨k, outer, cs, loops, -⟩
      simp only [Reader.after, looks, Look.state, loops, endedState]
      cases k <;> decide
  | lapse =>
      rw [looks] at passes
      rcases passes with ⟨k, outer, cs, loops, -⟩
      simp only [Reader.after, looks, Look.state]
      exact begun (by simp [loops])
  | key | string | number | token =>
      simp only [Reader.after, looks, Look.state]
      decide
  | _ => exact same (by simp only [Reader.after, looks, Look.loops]) (by simp only [Reader.after, looks, Look.state])

/-- On the outside there is nothing to tell but a container that begins. -/
theorem told_inside (told : r.look.notices r.loops r.st ≠ []) : r.loops ≠ [] ∨ r.after.loops ≠ [] := by
  by_cases outside : r.loops = []
  · refine .inr ?_
    have looks : r.look = look [] r.st r.rest := by rw [Reader.look, outside]
    cases rest : r.rest with
    | nil =>
        rw [looks, rest] at told
        exact absurd rfl told
    | cons c cs =>
        rw [rest] at looks
        simp only [look, lookTop] at looks
        split_ifs at looks
        · rw [looks] at told
          exact absurd rfl told
        · simp [Reader.after, looks, Look.loops]
        · simp [Reader.after, looks, Look.loops]
        · rw [looks] at told
          exact absurd rfl told
  · exact .inl outside

theorem call_left {h : JsonHandler U A} {failed : Failure × JsonCtx U A} (run : h.call ctx = .error failed) :
    failed.2.st = ctx.st := by
  rw [JsonHandler.call] at run
  cases cb : h.cb with
  | none =>
      rw [cb] at run
      cases run
  | some cb' =>
      rw [cb] at run
      dsimp only at run
      split_ifs at run
      cases run
      rfl

theorem tell_left {ns : List Notice} {res : Failure} (failed : tell handlers ns ctx = .error (res, ctx')) :
    ns ≠ [] ∧ ctx'.st = ctx.st := by
  induction ns generalizing ctx with
  | nil => cases failed
  | cons n ns ih =>
      refine ⟨List.cons_ne_nil n ns, ?_⟩
      cases called : (handlers.noticed n).call ctx with
      | ok ctx₁ =>
          rw [tell, called] at failed
          rcases call_ok called with ⟨stack, world, rfl⟩
          exact (ih failed).2
      | error failure =>
          rw [tell, called] at failed
          cases failed
          exact call_left called

theorem settled_st (l : Look) (ctx : JsonCtx U A) : (l.settled ctx).st = ctx.st := by
  cases l <;> rfl

variable (handlers) in
/-- A parse that fails has begun. -/
theorem resume_begun (fuel : Nat) (r : Reader) (ctx : JsonCtx U A) (stands : Stands r ctx)
    (begun : r.loops ≠ [] → r.st ≠ .start) (enough : r.rest.length < fuel) {res : Failure}
    (failed : resume handlers r.loops ctx = .error (res, ctx')) : ctx'.st ≠ .start := by
  induction fuel generalizing r ctx with
  | zero => exact absurd enough (Nat.not_lt_zero _)
  | succ fuel ih =>
      have looks : look r.loops ctx.st (ctx.input.drop ctx.idx) = r.look := by
        rw [stands.st, stands.left]
        rfl
      by_cases goes : r.look.Goes
      · rw [resume_look looks goes, Look.told, stands.st] at failed
        cases told : tell handlers (r.look.notices r.loops r.st) (r.look.ready r.loops ctx) with
        | ok ctx₁ =>
            rw [told] at failed
            rcases tell_ok told with ⟨stack, world, rfl⟩
            have shorter := after_shorter goes
            exact ih r.after _ (stands_after stands goes stack world) (fun inside => begun_within begun (.inr inside))
              (by omega) failed
        | error failure =>
            rw [told] at failed
            cases failed
            rcases tell_left told with ⟨some, st⟩
            have same : (r.look.settled (r.look.ready r.loops ctx)).st = r.after.st :=
              (stands_after stands goes (r.look.ready r.loops ctx).stack (r.look.ready r.loops ctx).world).st
            rw [settled_st] at same
            rw [st, same]
            exact begun_within begun (told_inside some)
      · cases stuck : r.look with
        | finished =>
            rw [resume_finished handlers (looks.trans stuck)] at failed
            cases failed
        | cut =>
            rcases resume_cut handlers (looks.trans stuck) with ⟨ctx₁, run, cut⟩
            rw [run] at failed
            cases failed
            exact cut.begun
        | reject res =>
            rw [resume_reject handlers (looks.trans stuck)] at failed
            cases failed
            have passes := r.passes
            rw [stuck] at passes
            rw [stands.st]
            exact begun passes.1
        | _ =>
            rw [stuck] at goes
            exact absurd trivial goes

/-- A parser that has begun and is outside passes over what is left. -/
theorem resume_idle (fuel : Nat) (ctx : JsonCtx U A) (begun : ctx.st ≠ .start)
    (enough : (ctx.input.drop ctx.idx).length < fuel) :
    ∃ ctx', resume handlers [] ctx = .ok ctx' ∧ ctx'.world = ctx.world := by
  induction fuel generalizing ctx with
  | zero => exact absurd enough (Nat.not_lt_zero _)
  | succ fuel ih =>
      cases left : ctx.input.drop ctx.idx with
      | nil => exact ⟨_, resume_end left, rfl⟩
      | cons c cs =>
          by_cases zero : c = 0
          · have looks : look [] ctx.st (ctx.input.drop ctx.idx) = .finished := by rw [left, look, if_pos zero]
            exact ⟨_, resume_finished handlers looks, rfl⟩
          · have looks : look [] ctx.st (ctx.input.drop ctx.idx) = .pass ctx.st := by
              simp only [left, look, lookTop, if_neg zero, begun, false_and, if_false]
            have next : ctx.input.drop (ctx.idx + 1) = cs := by rw [← List.drop_drop, left, List.drop_one, List.tail_cons]
            rw [left, List.length_cons] at enough
            rw [resume_look looks trivial]
            exact ih { ctx with idx := ctx.idx + 1 } begun (by rw [next]; omega)

theorem jsonParse_idle (handlers : JsonHandlers U A) (text : List UInt8) (ctx : JsonCtx U A) (begun : ctx.st ≠ .start) :
    ∃ ctx', jsonParse handlers text ctx = .ok ctx' ∧ ctx'.world = ctx.world := by
  rw [jsonParse_top]
  exact resume_idle _ { ctx with input := text } begun (Nat.lt_succ_self _)

theorem callsMade_idle (handlers : JsonHandlers U A) (text : List UInt8) (ctx : JsonCtx U A) (begun : ctx.st ≠ .start) :
    callsMade handlers text ctx = [] := by
  rcases jsonParse_idle handlers.recorded text { ctx with world := (ctx.world, []) } begun with ⟨ctx', run, world⟩
  rw [callsMade, run]
  exact congrArg Prod.snd world

/-! What the client hears. -/

/-- A call as the client sees it. -/
structure Message (U : Type) where
  callback : JsonCallback
  udata : U
  event : Event
  deriving DecidableEq

def Call.message (call : Call U) : Option (Message U) :=
  call.result.map fun _ => ⟨call.callback, call.udata, call.event⟩

def Site.message (handlers : JsonHandlers U A) (site : Site) : Option (Message U) :=
  (handlers.get site.notice.callback).cb.map fun _ =>
    ⟨site.notice.callback, (handlers.get site.notice.data).udata, site.event⟩

/-- The callbacks that are called in a parse, in their order. -/
def messages (handlers : JsonHandlers U A) (text : List UInt8) (ctx : JsonCtx U A) : List (Message U) :=
  (callsMade handlers text ctx).filterMap Call.message

theorem Meets.message {site : Site} {call : Call U} (meets : Meets handlers site call) :
    call.message = site.message handlers := by
  rw [Call.message, Site.message, meets.callback, meets.udata, meets.event]
  cases result : call.result with
  | none => rw [meets.unset.mp result]; rfl
  | some res =>
      cases set : (handlers.get site.notice.callback).cb with
      | none =>
          rw [meets.unset.mpr set] at result
          cases result
      | some cb => rfl

theorem messages_of (complete : List.Forall₂ (Meets handlers) sites calls) :
    calls.filterMap Call.message = sites.filterMap (Site.message handlers) := by
  induction complete with
  | nil => rfl
  | cons meets _ ih => rw [List.filterMap_cons, List.filterMap_cons, meets.message, ih]

theorem relabel_needMore {loops : List Container} {res : Failure} (more : relabel loops res = .needMore) :
    res = .needMore := by
  rw [relabel_eq] at more
  split_ifs at more
  exact more

/-- A parse that wants more has come to the end of the text in a word. -/
theorem needMore_cut {site : Site} {res : Int} : Outcome r (some .needMore) (some (site, res)) → False := by
  intro outcome
  have label := relabel_needMore (Option.some.inj outcome).symm
  rw [Notice.label] at label
  cases code : site.notice.code with
  | none =>
      rw [code] at label
      cases label
  | some n =>
      rw [code] at label
      cases label

theorem Stops.finished (stops : Stops r none) : r.look = .finished := by
  rw [Stops] at stops
  cases looks : r.look with
  | finished => rfl
  | cut | reject =>
      rw [looks] at stops
      cases stops
  | _ =>
      rw [looks] at stops
      exact stops.elim

theorem Heard.zero (heard : Heard handlers sites calls none) : ∀ call ∈ calls, call.result.getD 0 = 0 := by
  generalize none : Option.none = stopped at heard
  induction heard with
  | nil => exact fun call inside => absurd inside List.not_mem_nil
  | next _ zero _ ih => exact List.forall_mem_cons.mpr ⟨zero, ih none⟩
  | stop => cases none

theorem filterMap_nil_iff {sites : List Site} : sites.filterMap (Site.message handlers) = [] ↔
    ∀ site ∈ sites, (handlers.get site.notice.callback).cb = none := by
  simp [List.filterMap_eq_nil_iff, Site.message]

/-- With the longer text the calls go on and the result is that of a single parse exactly if
there is nothing left of which the client is told. -/
theorem jsonParse_resumes (handlers : JsonHandlers U A) (junk : JsonCtx U A) (cb : Option (JsonCb U A)) (udata : U)
    (text more : List UInt8)
    (stopped : resultOf (jsonParse handlers text (jsonInit junk cb udata).1) = some .needMore) :
    let ctx := (jsonInit junk cb udata).1
    let resumed := leftBy (jsonParse handlers text ctx)
    (messages handlers text ctx ++ messages handlers (text ++ more) resumed = messages handlers (text ++ more) ctx ∧
        resultOf (jsonParse handlers (text ++ more) resumed) = resultOf (jsonParse handlers (text ++ more) ctx)) ↔
      (lastReader (text ++ more)).look = .finished ∧
        (∀ site ∈ (callSites (text ++ more)).drop (callSites text).length,
          (handlers.get site.notice.callback).cb = none) ∧
        ∀ call ∈ callsMade handlers (text ++ more) ctx, call.result.getD 0 = 0 := by
  intro ctx resumed
  have begun : resumed.st ≠ .start := by
    have stands : Stands (Reader.start text) { ctx with input := text } := stands_start rfl rfl rfl
    cases run : jsonParse handlers text ctx with
    | ok ctx' =>
        rw [run] at stopped
        cases stopped
    | error failed =>
        have left : resumed = failed.2 := by rw [show resumed = leftBy (jsonParse handlers text ctx) from rfl, run]; rfl
        rw [jsonParse_top] at run
        rw [left]
        exact resume_begun handlers (text.length + 1) (Reader.start text) _ stands (fun inside => absurd rfl inside)
          (Nat.lt_succ_self _) run
  rcases jsonParse_idle handlers (text ++ more) resumed begun with ⟨ctx', again, -⟩
  have silent : messages handlers (text ++ more) resumed = [] := by
    rw [messages, callsMade_idle handlers _ _ begun]
    rfl
  rw [again, silent, List.append_nil]
  rcases jsonParse_heard handlers text ctx rfl rfl rfl with ⟨stop, heard, outcome⟩
  rcases jsonParse_heard handlers (text ++ more) ctx rfl rfl rfl with ⟨stop', heard', outcome'⟩
  rcases callSites_more text more with ⟨others, sites⟩
  have first : messages handlers text ctx = (callSites text).filterMap (Site.message handlers) := by
    cases stop with
    | none => exact messages_of heard.complete
    | some stop =>
        rw [stopped] at outcome
        exact (needMore_cut outcome).elim
  rw [← sites, List.drop_left, ← filterMap_nil_iff, first]
  constructor
  · rintro ⟨same, result⟩
    cases stop' with
    | some stop =>
        rw [← result] at outcome'
        cases outcome'
    | none =>
        rw [← result] at outcome'
        rw [messages, messages_of heard'.complete, ← sites, List.filterMap_append] at same
        refine ⟨Stops.finished outcome', List.self_eq_append_right.mp same, heard'.zero⟩
  · rintro ⟨finished, unset, zero⟩
    cases heard'.unrefused zero
    rw [Outcome, Stops, finished] at outcome'
    refine ⟨?_, outcome'.symm⟩
    rw [messages, messages_of heard'.complete, ← sites, List.filterMap_append, unset, List.append_nil]

/-- The texts are `[1` and `[1]`. -/
theorem resumes_sample :
    let ctx := (jsonInit (blank ()) none ()).1
    let resumed := leftBy (jsonParse willing [91, 49] ctx)
    (messages willing [91, 49] ctx ++ messages willing [91, 49, 93] resumed = messages willing [91, 49, 93] ctx ∧
        resultOf (jsonParse willing [91, 49, 93] resumed) = resultOf (jsonParse willing [91, 49, 93] ctx)) ↔
      (lastReader [91, 49, 93]).look = .finished ∧
        (∀ site ∈ (callSites [91, 49, 93]).drop (callSites [91, 49]).length,
          (willing.get site.notice.callback).cb = none) ∧
        ∀ call ∈ callsMade willing [91, 49, 93] ctx, call.result.getD 0 = 0 :=
  jsonParse_resumes willing (blank ()) none () [91, 49] [93] (by decide +kernel)

theorem resumes_not :
    resultOf (jsonParse willing [91, 49] (jsonInit (blank ()) none ()).1) = some .needMore ∧
      let ctx := (jsonInit (blank ()) none ()).1
      let resumed := leftBy (jsonParse willing [91, 49] ctx)
      (messages willing [91, 49] ctx ++ messages willing [91, 49, 93] resumed).map (·.callback) = [.astart, .item] ∧
        (messages willing [91, 49, 93] ctx).map (·.callback) = [.astart, .item, .item, .astop] ∧
        resultOf (jsonParse willing [91, 49, 93] ctx) = none := by
  decide +kernel

end MnCommon.JsonParser
