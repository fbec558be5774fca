import MnCommon.JsonParser.Propagation

/-! The user data of the callbacks. -/

namespace MnCommon.JsonParser

variable {U A : Type} {handlers : JsonHandlers U A} {ctx : JsonCtx U A} {before after text : List UInt8} {r : Reader}
  {loops : List Container} {st st' : JsonState} {rest : List UInt8} {c : UInt8}

section setters

variable (handlers : JsonHandlers U A) (cb : Option (JsonCb U A)) (udata : U)

def jsonSetOstartCb : JsonHandlers U A := { handlers with ostart := { cb := cb, udata := udata } }

def jsonSetOstopCb : JsonHandlers U A := { handlers with ostop := { cb := cb, udata := udata } }

def jsonSetAstartCb : JsonHandlers U A := { handlers with astart := { cb := cb, udata := udata } }

def jsonSetAstopCb : JsonHandlers U A := { handlers with astop := { cb := cb, udata := udata } }

def jsonSetKeyCb : JsonHandlers U A := { handlers with key := { cb := cb, udata := udata } }

def jsonSetValueCb : JsonHandlers U A := { handlers with value := { cb := cb, udata := udata } }

def jsonSetItemCb : JsonHandlers U A := { handlers with item := { cb := cb, udata := udata } }

end setters

/-- The setters set what there is. -/
theorem handlers_set (junk : JsonCtx U A) (cb : Option (JsonCb U A)) (udata : U) (h : JsonHandlers U A) :
    jsonSetItemCb (jsonSetValueCb (jsonSetKeyCb (jsonSetAstopCb (jsonSetAstartCb (jsonSetOstopCb (jsonSetOstartCb
      (jsonInit junk cb udata).2 h.ostart.cb h.ostart.udata) h.ostop.cb h.ostop.udata) h.astart.cb h.astart.udata)
      h.astop.cb h.astop.udata) h.key.cb h.key.udata) h.value.cb h.value.udata) h.item.cb h.item.udata = h := by
  simp only [jsonSetItemCb, jsonSetValueCb, jsonSetKeyCb, jsonSetAstopCb, jsonSetAstartCb, jsonSetOstopCb,
    jsonSetOstartCb]

/-- The text in front of its container. -/
def Clean (before : List UInt8) : Prop := ∀ c ∈ before, c ≠ 0 ∧ c ≠ 123 ∧ c ≠ 91

def Site.Own (site : Site) : Prop := site.notice.data = site.notice.callback

theorem begun_after (goes : r.look.Goes) (begun : r.st ≠ .start) : r.after.st ≠ .start := by
  have passes := r.passes
  have ended : endedState r.loops r.st ≠ .start := by
    rcases r.loops with _ | ⟨_ | _, outer⟩
    · exact begun
    · simp [endedState, Container.ended]
    · simp [endedState, Container.ended]
  cases looks : r.look with
  | pass st =>
      rw [looks] at passes
      simp only [Reader.after, looks, Look.state]
      rcases passes.2 with rfl | rfl | rfl
      · exact begun
      · simp
      · simp
  | enter k =>
      simp only [Reader.after, looks, Look.state]
      cases k <;> simp [Container.begun]
  | leave =>
      simp only [Reader.after, looks, Look.state]
      exact ended
  | lapse =>
      simp only [Reader.after, looks, Look.state]
      exact begun
  | finished | cut | reject =>
      rw [looks] at goes
      exact goes.elim
  | _ => simp [Reader.after, looks, Look.state]

theorem sites_own (begun : r.loops = [] → r.st = .start → r.look ≠ .enter .object) : ∀ site ∈ r.sites, site.Own := by
  have passes := r.passes
  have own : ∀ n ∈ r.look.notices r.loops r.st, n.data = n.callback := by
    cases looks : r.look with
    | enter k =>
        rw [looks] at passes
        rcases loops : r.loops with _ | ⟨_ | _, outer⟩
        · cases k with
          | object => exact absurd looks (begun loops (passes.2 loops))
          | array => simp [Look.notices, startNotice, slotNotice]
        all_goals
          cases k <;> simp [Look.notices, startNotice, slotNotice]
    | string | number | token => rcases r.loops with _ | ⟨_ | _, outer⟩ <;> simp [Look.notices, slotNotice]
    | leave => rcases r.loops with _ | ⟨_ | _, outer⟩ <;> simp [Look.notices]
    | _ => simp [Look.notices]
  intro site inside
  rcases List.mem_map.mp inside with ⟨n, told, rfl⟩
  exact own n told

/-- Behind the first bracket all the calls have their own data. -/
theorem calls_own (fuel : Nat) (r : Reader) (begun : r.st ≠ .start) : ∀ site ∈ r.calls fuel, site.Own := by
  induction fuel generalizing r with
  | zero => exact fun site inside => absurd inside List.not_mem_nil
  | succ fuel ih =>
      rw [Reader.calls]
      split_ifs with goes
      · intro site inside
        rcases List.mem_append.mp inside with here | later
        · exact sites_own (fun _ st => absurd st begun) site here
        · exact ih r.after (begun_after goes begun) site later
      · exact fun site inside => absurd inside List.not_mem_nil

theorem look_start (zero : c ≠ 0) (brace : c ≠ 123) (bracket : c ≠ 91) (cs : List UInt8) :
    (Reader.start (c :: cs)).look = .pass .start := by
  simp [Reader.look, Reader.start, look, lookTop, zero, brace, bracket]

/-- The object of the text. -/
def openingSites : List Site :=
  [⟨[], ⟨.ostart, .ostart, none⟩, ⟨.ostart, .object, 0, .none⟩⟩, ⟨[], ⟨.value, .item, none⟩, ⟨.value, .object, 0, .none⟩⟩]

theorem calls_object (after : List UInt8) (clean : Clean before) (fuel : Nat) (enough : (before ++ 123 :: after).length < fuel) :
    ∃ others, (Reader.start (before ++ 123 :: after)).calls fuel = openingSites ++ others ∧
      ∀ site ∈ others, site.Own := by
  induction before generalizing fuel with
  | nil =>
      cases fuel with
      | zero => exact absurd enough (Nat.not_lt_zero _)
      | succ fuel => exact ⟨_, rfl, calls_own fuel _ (by simp [Reader.after, Reader.look, Reader.start, look, lookTop,
          Look.state, Container.begun])⟩
  | cons c before ih =>
      cases fuel with
      | zero => exact absurd enough (Nat.not_lt_zero _)
      | succ fuel =>
          rcases List.forall_mem_cons.mp clean with ⟨⟨zero, brace, bracket⟩, clean'⟩
          have looks := look_start zero brace bracket (before ++ 123 :: after)
          rcases ih clean' fuel (Nat.lt_of_succ_lt_succ enough) with ⟨others, calls, own⟩
          refine ⟨others, ?_, own⟩
          rw [List.cons_append, Reader.calls, if_pos (by rw [looks]; trivial), ← calls]
          simp only [Reader.sites, Reader.after, looks]
          rfl

theorem calls_elsewhere (fuel : Nat) (none : ∀ before after, text = before ++ 123 :: after → ¬ Clean before) :
    ∀ site ∈ (Reader.start text).calls fuel, site.Own := by
  induction fuel generalizing text with
  | zero => exact fun site inside => absurd inside List.not_mem_nil
  | succ fuel ih =>
      rw [Reader.calls]
      cases text with
      | nil => exact fun site inside => absurd inside List.not_mem_nil
      | cons c cs =>
          by_cases zero : c = 0
          · subst zero
            exact fun site inside => absurd inside List.not_mem_nil
          have brace : c ≠ 123 := by
            rintro rfl
            exact none [] cs rfl fun _ wrong => absurd wrong List.not_mem_nil
          by_cases bracket : c = 91
          · subst bracket
            have looks : (Reader.start (91 :: cs)).look = .enter .array := rfl
            have begun : (Reader.start (91 :: cs)).after.st ≠ .start := by
              rw [Reader.after, looks]
              simp [Look.state, Container.begun]
            rw [if_pos (by rw [looks]; trivial)]
            intro site inside
            rcases List.mem_append.mp inside with here | later
            · exact sites_own (fun _ _ => by simp [looks]) site here
            · exact calls_own fuel _ begun site later
          · have looks := look_start zero brace bracket cs
            have none' : ∀ before after, cs = before ++ 123 :: after → ¬ Clean before := by
              rintro before after rfl clean
              exact none (c :: before) after rfl (List.forall_mem_cons.mpr ⟨⟨zero, brace, bracket⟩, clean⟩)
            rw [if_pos (by rw [looks]; trivial)]
            simp only [Reader.sites, Reader.after, looks]
            exact ih none'

/-! The first call. -/

theorem resume_clean (clean : Clean before) (st : ctx.st = .start) (left : ctx.input.drop ctx.idx = before ++ rest) :
    resume handlers [] ctx = resume handlers [] { ctx with idx := ctx.idx + before.length } := by
  induction before generalizing ctx with
  | nil => rfl
  | cons c before ih =>
      rcases List.forall_mem_cons.mp clean with ⟨⟨zero, brace, bracket⟩, clean'⟩
      have looks : look [] ctx.st (ctx.input.drop ctx.idx) = .pass .start := by
        rw [st, left]
        exact look_start zero brace bracket (before ++ rest)
      have left' : ctx.input.drop (ctx.idx + 1) = before ++ rest := by
        rw [← List.drop_drop, left]
        rfl
      have index : ctx.idx + (c :: before).length = ctx.idx + 1 + before.length := by
        rw [List.length_cons]
        omega
      rw [resume_look looks trivial, index]
      have later := @ih { ctx with st := .start, idx := ctx.idx + 1 } clean' rfl left'
      rw [← st] at later
      refine Eq.trans ?_ later
      rw [st]
      rfl

/-- The context for the first call about the object of the text. -/
def JsonCtx.objectBegun (ctx : JsonCtx U A) (text : List UInt8) (n : Nat) : JsonCtx U A :=
  { ctx with input := text, st := .ostart, ty := .object, idx := n, nest := ctx.nest + 1 }

def ostartNotice : Notice := ⟨.ostart, .ostart, none⟩

/-- The notes of what comes later go behind those that are there. -/
theorem told_grows {n : Notice} {more : Parser U (A × List (Call U))} {ctx : JsonCtx U (A × List (Call U))}
    (grows : ∀ stack world calls, ∃ calls', (leftBy (more { ctx with
      stack := stack, world := (world, ctx.world.2 ++ calls) })).world.2 = ctx.world.2 ++ calls ++ calls') :
    ∃ calls, (leftBy (passOn loops (tell handlers.recorded [n] ctx) more)).world.2 = ctx.world.2 ++ calls := by
  rw [tell_single]
  rcases @recorded_call U A handlers n ctx with ⟨stack, world, run, -⟩
  rw [run, afterCall]
  split_ifs with zero
  · rcases grows stack world [callOf handlers n (observe n.callback ctx) ctx.erased] with ⟨calls', made⟩
    exact ⟨_, made.trans (List.append_assoc _ _ _)⟩
  · exact ⟨[callOf handlers n (observe n.callback ctx) ctx.erased], rfl⟩

theorem first_told {ctx : JsonCtx U (A × List (Call U))} (stands : Stands ⟨[], [], .start, 123 :: after⟩ ctx)
    (empty : ctx.world.2 = []) :
    ∃ more, (leftBy (resume handlers.recorded [] ctx)).world.2 = callOf handlers ostartNotice
      ⟨.ostart, .object, 0, .none⟩ (ctx.erased.objectBegun ctx.input ctx.idx) :: more := by
  have looks : look [] ctx.st (ctx.input.drop ctx.idx) = .enter .object := by
    rw [stands.st, stands.left]
    rfl
  have seen : observe .ostart (Look.ready [] ctx (.enter .object)) = ⟨.ostart, .object, 0, .none⟩ := by
    change (⟨.ostart, .object, ctx.nest + 1, .none⟩ : Event) = _
    rw [stands.nest]
    rfl
  rcases @recorded_call U A handlers ostartNotice (Look.ready [] ctx (.enter .object)) with ⟨stack, world, run, -⟩
  change _ = afterCall (callOf handlers ostartNotice (observe .ostart (Look.ready [] ctx (.enter .object))) _)
    { Look.ready [] ctx (.enter .object) with
      stack := stack, world := (world, ctx.world.2 ++ [callOf handlers ostartNotice
        (observe .ostart (Look.ready [] ctx (.enter .object))) (Look.ready [] ctx (.enter .object)).erased]) } at run
  rw [seen, empty, List.nil_append, afterCall] at run
  rw [resume_look looks trivial]
  change ∃ more, (leftBy (passOn [] (labelled (fun res => res) ((handlers.recorded.noticed ostartNotice).call _) >>=
    tell handlers.recorded [⟨.value, .item, none⟩]) _)).world.2 = _
  rw [labelled_same, run]
  split_ifs with zero
  · have grows := @told_grows U A handlers [] ⟨.value, .item, none⟩
      (fun ctx' => resume handlers.recorded [.object] (Look.settled ctx' (.enter .object)))
      { Look.ready [] ctx (.enter .object) with
        stack := stack, world := (world, [callOf handlers ostartNotice ⟨.ostart, .object, 0, .none⟩
          (Look.ready [] ctx (.enter .object)).erased]) }
    have later := grows fun stack' world' calls => by
      have stands' := stands_after stands (by trivial) stack' (world', callOf handlers ostartNotice
        ⟨.ostart, .object, 0, .none⟩ (Look.ready [] ctx (.enter .object)).erased :: calls)
      rcases resume_heard handlers _ _ _ stands' (Nat.lt_succ_self _) with ⟨calls', -, -, made, -⟩
      exact ⟨calls', made⟩
    rcases later with ⟨calls, made⟩
    exact ⟨calls, made⟩
  · exact ⟨[], rfl⟩

theorem first_call (clean : Clean before) (st : ctx.st = .start) (idx : ctx.idx = 0) (nest : ctx.nest = -1) :
    ∃ more, callsMade handlers (before ++ 123 :: after) ctx = callOf handlers ostartNotice ⟨.ostart, .object, 0, .none⟩
      (ctx.objectBegun (before ++ 123 :: after) before.length) :: more := by
  have left : (before ++ 123 :: after).drop (0 + before.length) = 123 :: after := by rw [Nat.zero_add, List.drop_left]
  have whole : (before ++ 123 :: after).drop 0 = before ++ 123 :: after := List.drop_zero
  have skipped := @resume_clean U (A × List (Call U)) handlers.recorded
    { ctx with world := (ctx.world, []), input := before ++ 123 :: after, idx := 0 } before (123 :: after) clean st whole
  have told := @first_told U A handlers after
    { ctx with world := (ctx.world, []), input := before ++ 123 :: after, idx := 0 + before.length }
    ⟨st, left, nest, Nat.le_refl _⟩ rfl
  rw [Nat.zero_add] at told skipped
  rw [← skipped] at told
  rw [callsMade, jsonParse_top, idx]
  exact told

/-- The client lets an object begin. -/
def Admits (handlers : JsonHandlers U A) (ctx : JsonCtx U A) : Prop := ∃ ctx', handlers.ostart.call ctx = .ok ctx'

theorem admits_iff (event : Event) (ctx : JsonCtx U A) :
    Admits handlers ctx ↔ (callOf handlers ostartNotice event ctx).result.getD 0 = 0 := by
  change (∃ ctx', handlers.ostart.call ctx = .ok ctx') ↔
    (handlers.ostart.cb.map fun cb => (cb ctx handlers.ostart.udata).1).getD 0 = 0
  rw [JsonHandler.call]
  cases handlers.ostart.cb with
  | none => simp
  | some cb => by_cases zero : (cb ctx handlers.ostart.udata).1 = 0 <;> simp [zero]

theorem Heard.met {sites : List Site} {calls : List (Call U)} {stop : Option (Site × Int)}
    (heard : Heard handlers sites calls stop) : ∀ call ∈ calls, ∃ site ∈ sites, Meets handlers site call := by
  induction heard with
  | nil => exact fun call inside => absurd inside List.not_mem_nil
  | @next site sites first _ _ meets _ _ ih =>
      intro call inside
      rcases List.mem_cons.mp inside with rfl | later
      · exact ⟨site, List.mem_cons_self, meets⟩
      · rcases ih call later with ⟨site', among, meets'⟩
        exact ⟨site', List.mem_cons_of_mem _ among, meets'⟩
  | @stop site sites first _ meets _ _ =>
      intro call inside
      rcases List.mem_singleton.mp inside with rfl
      exact ⟨site, List.mem_cons_self, meets⟩

theorem Heard.along {sites : List Site} {calls : List (Call U)} {stop : Option (Site × Int)}
    (heard : Heard handlers sites calls stop) :
    calls.map (fun call => (call.callback, call.event)) <+:
      sites.map fun site => (site.notice.callback, site.event) := by
  induction heard with
  | nil => exact List.prefix_refl _
  | next meets _ _ ih =>
      rw [List.map_cons, List.map_cons, meets.callback, meets.event]
      exact (List.prefix_cons_inj _).mpr ih
  | stop meets _ _ =>
      rw [List.map_cons, List.map_cons, meets.callback, meets.event]
      exact (List.prefix_cons_inj _).mpr (List.nil_prefix)

theorem Meets.own {site : Site} {call : Call U} (meets : Meets handlers site call) (own : site.Own) :
    call.udata = (handlers.get call.callback).udata := by
  rw [meets.udata, meets.callback, own]

/-- The calls are those of the text, and each gets the data of its own kind, exactly if the
text is not an object of which the client is told, or its values and items share their data. -/
theorem jsonParse_udata (handlers : JsonHandlers U A) (junk : JsonCtx U A) (cb : Option (JsonCb U A)) (udata : U)
    (text : List UInt8) :
    ((callsMade handlers text (jsonInit junk cb udata).1).map (fun call => (call.callback, call.event)) <+:
        (callSites text).map (fun site => (site.notice.callback, site.event)) ∧
      ∀ call ∈ callsMade handlers text (jsonInit junk cb udata).1, call.result ≠ none →
        call.udata = (handlers.get call.callback).udata) ↔
    ∀ before after, text = before ++ 123 :: after → Clean before → handlers.value.cb ≠ none →
      Admits handlers ((jsonInit junk cb udata).1.objectBegun text before.length) →
        handlers.item.udata = handlers.value.udata := by
  rcases jsonParse_heard handlers text (jsonInit junk cb udata).1 rfl rfl rfl with ⟨stop, heard, -⟩
  constructor
  · rintro ⟨-, own⟩ before after rfl clean set admits
    rcases calls_object after clean _ (Nat.lt_succ_self _) with ⟨others, sites, -⟩
    rcases @first_call U A handlers (jsonInit junk cb udata).1 before after clean rfl rfl rfl with
      ⟨more, made⟩
    rw [callSites, sites, made] at heard
    rw [made] at own
    rw [admits_iff ⟨.ostart, .object, 0, .none⟩] at admits
    have second (call : Call U) (inside : call ∈ more)
        (meets : Meets handlers ⟨[], ⟨.value, .item, none⟩, ⟨.value, .object, 0, .none⟩⟩ call) :
        handlers.item.udata = handlers.value.udata := by
      have same := own call (List.mem_cons_of_mem _ inside) fun unset => set (meets.unset.mp unset)
      rw [meets.udata, meets.callback] at same
      exact same
    cases heard with
    | next _ _ heard =>
        cases heard with
        | next meets _ _ => exact second _ List.mem_cons_self meets
        | stop meets _ _ => exact second _ List.mem_cons_self meets
    | stop _ returned nonzero =>
        rw [returned] at admits
        exact absurd admits nonzero
  · intro shared
    refine ⟨heard.along, ?_⟩
    by_cases object : ∃ before after, text = before ++ 123 :: after ∧ Clean before
    · rcases object with ⟨before, after, rfl, clean⟩
      rcases calls_object after clean _ (Nat.lt_succ_self _) with ⟨others, sites, own⟩
      rcases @first_call U A handlers (jsonInit junk cb udata).1 before after clean rfl rfl rfl with
        ⟨more, made⟩
      rw [callSites, sites, made] at heard
      rw [made]
      have first : Site.Own ⟨[], ostartNotice, ⟨.ostart, .object, 0, .none⟩⟩ := rfl
      intro call inside set
      rcases List.mem_cons.mp inside with rfl | later
      · rfl
      · cases heard with
        | stop => exact absurd later List.not_mem_nil
        | next _ zero heard =>
            rcases heard.met call later with ⟨site, among, meets⟩
            rcases List.mem_cons.mp among with rfl | behind
            · rw [meets.udata, meets.callback]
              exact shared before after rfl clean (fun unset => set (meets.unset.mpr unset))
                ((admits_iff _ _).mpr zero)
            · exact meets.own (own site behind)
    · intro call inside _
      rcases heard.met call inside with ⟨site, among, meets⟩
      refine meets.own (calls_elsewhere _ ?_ site among)
      exact fun before after same clean => object ⟨before, after, same, clean⟩

/-- A client whose callbacks have numbers for their data. -/
def numbered : JsonHandlers Nat Unit :=
  let cb : Option (JsonCb Nat Unit) := some fun ctx _ => (0, ctx.stack, ctx.world)
  { ostart := ⟨cb, 0⟩, ostop := ⟨cb, 1⟩, astart := ⟨cb, 2⟩, astop := ⟨cb, 3⟩, key := ⟨cb, 4⟩, value := ⟨cb, 5⟩,
    item := ⟨cb, 6⟩ }

/-- The text is `{}`. -/
theorem udata_mixed :
    let junk : JsonCtx Nat Unit := { blank () with stack := [] }
    (callsMade numbered [123, 125] (jsonInit junk none 0).1).map (fun call => (call.callback, call.udata)) =
      [(.ostart, 0), (.value, 6), (.ostop, 1)] ∧ (numbered.get .value).udata = 5 := by
  decide +kernel

/-! The reader and the documents. -/

theorem mute_recorded : Follows mute.recorded fun world events => world.2.map (·.event) = events := by
  constructor
  rintro k udata ctx _ rfl
  refine ⟨(ctx.world.1, ctx.world.2 ++ [⟨k, udata, observe k ctx, none⟩]), ?_, by simp⟩
  cases k <;> rfl

/-- Of a document, the reader sees the events. -/
theorem callSites_events {v : Grammars.Json} {seg : List UInt8} (reading : Reading v before seg after) :
    (callSites (before ++ (seg ++ after))).map (·.event) = documentEvents v := by
  rcases jsonParse_heard mute (before ++ (seg ++ after)) (jsonInit (blank ()) none ()).1 rfl rfl rfl with
    ⟨stop, heard, -⟩
  have passing : Passing mute := by
    intro k cb set
    cases k <;> cases set
  cases heard.passing passing
  rcases @jsonParse_reading Unit _ mute.recorded _ { (jsonInit (blank ()) none ()).1 with world := ((), []) } seg v
    before after mute_recorded reading rfl rfl rfl rfl rfl with ⟨ctx', run, -, events⟩
  have made : callsMade mute (before ++ (seg ++ after)) (jsonInit (blank ()) none ()).1 = ctx'.world.2 := by
    rw [callsMade, run]
    rfl
  rw [made] at heard
  rw [← events]
  exact (events_of heard.complete).symm

end MnCommon.JsonParser
