import MnCommon.JsonParser.Nesting

/-! Contexts that are used again. -/

namespace MnCommon.JsonParser

variable {U A B : Type}

/-- `current_key` of the context, which only the callbacks read and write, and the memory of
the client. -/
structure Keyed (A : Type) where
  currentKey : Option (List UInt8)
  client : A
  deriving DecidableEq

/-- `json_init` with the key. -/
def jsonInitKeyed (ctx : JsonCtx U (Keyed A)) (cb : Option (JsonCb U (Keyed A))) (udata : U) :
    JsonCtx U (Keyed A) × JsonHandlers U (Keyed A) :=
  let (ctx, handlers) := jsonInit ctx cb udata
  ({ ctx with world.currentKey := none }, handlers)

/-- `ty` and `v` stay as they are. -/
def jsonReset (ctx : JsonCtx U (Keyed A)) : JsonCtx U (Keyed A) :=
  { ctx with
    world.currentKey := none
    stack := []
    input := []
    st := .start
    flags := { needUnescape := false, float := false, scientific := false }
    idx := 0
    nest := -1 }

def sliceOf (ctx : JsonCtx U A) : List UInt8 :=
  match ctx.v with
  | .s start stop => (ctx.input.drop start).take (stop - start)
  | _ => []

def jsonCtxNoticeKey : JsonCb U (Keyed A) := fun ctx _ =>
  (0, ctx.stack, { ctx.world with currentKey := some (sliceOf ctx) })

/-- The types with a member of the union of their own. -/
def JsonType.HasMember : JsonType → Prop
  | .string | .int | .float | .boolean => True
  | _ => False

instance (ty : JsonType) : Decidable ty.HasMember := by
  cases ty <;> first | exact isTrue trivial | exact isFalse id

/-- The same but for the type and the union. -/
structure Alike (ctx ctx' : JsonCtx U A) : Prop where
  input : ctx.input = ctx'.input
  st : ctx.st = ctx'.st
  flags : ctx.flags = ctx'.flags
  idx : ctx.idx = ctx'.idx
  nest : ctx.nest = ctx'.nest
  stack : ctx.stack = ctx'.stack
  world : ctx.world = ctx'.world

/-- The same but for a union without a member for the type. -/
structure SeenAlike (ctx ctx' : JsonCtx U A) : Prop extends Alike ctx ctx' where
  ty : ctx.ty = ctx'.ty
  v : ctx.ty.HasMember → ctx.v = ctx'.v

/-- Callbacks that read of the union only the member that belongs to the type, which of a key
is that of a string. -/
def Discreet (handlers : JsonHandlers U A) : Prop :=
  ∀ k cb, (handlers.get k).cb = some cb → ∀ ctx ctx', SeenAlike ctx ctx' → (k = .key → ctx.ty = .string) →
    ∀ udata, cb ctx udata = cb ctx' udata

variable {handlers : JsonHandlers U A} {ctx ctx' ctx₁ ctx₁' : JsonCtx U A} {loops : List Container} {l : Look}

theorem Alike.eq (alike : Alike ctx ctx') : ctx' = { ctx with ty := ctx'.ty, v := ctx'.v } := by
  rcases alike with ⟨input, st, flags, idx, nest, stack, world⟩
  cases ctx
  cases ctx'
  cases input
  cases st
  cases flags
  cases idx
  cases nest
  cases stack
  cases world
  rfl

theorem alike_changed (ctx : JsonCtx U A) (ty : JsonType) (v : JsonV) : Alike ctx { ctx with ty := ty, v := v } :=
  ⟨rfl, rfl, rfl, rfl, rfl, rfl, rfl⟩

theorem tokenValue_alike (tmp : Nat) (ctx : JsonCtx U A) (null : ctx.ty = .null) (v : JsonV) :
    SeenAlike (tokenValue tmp ctx).inward (tokenValue tmp { ctx with v := v }).inward := by
  simp only [tokenValue]
  split_ifs with yes no nothing
  · exact ⟨⟨rfl, rfl, rfl, rfl, rfl, rfl, rfl⟩, rfl, fun _ => rfl⟩
  · exact ⟨⟨rfl, rfl, rfl, rfl, rfl, rfl, rfl⟩, rfl, fun _ => rfl⟩
  · exact ⟨⟨rfl, rfl, rfl, rfl, rfl, rfl, rfl⟩, rfl, fun member => member.elim⟩
  · refine ⟨⟨rfl, rfl, rfl, rfl, rfl, rfl, rfl⟩, rfl, fun member => ?_⟩
    change ctx.ty.HasMember at member
    rw [null] at member
    exact member.elim

/-- What the client is told is the same. -/
structure ToldAlike (l : Look) (ctx ctx' : JsonCtx U A) : Prop extends Alike ctx ctx' where
  seen : (∃ loops st, l.notices loops st ≠ []) → SeenAlike ctx ctx'
  key : ∀ body, l = .key body → ctx.ty = .string

theorem ready_alike (alike : Alike ctx ctx') (passes : Passes loops ctx.st (ctx.input.drop ctx.idx) l) (goes : l.Goes) :
    ToldAlike l (l.ready loops ctx) (l.ready loops ctx') := by
  rw [alike.eq]
  generalize ctx'.ty = ty
  generalize ctx'.v = v
  have other (seen : SeenAlike (l.ready loops ctx) (l.ready loops { ctx with ty := ty, v := v }))
    (key : ∀ body, l ≠ .key body) : ToldAlike l (l.ready loops ctx) (l.ready loops { ctx with ty := ty, v := v }) :=
    ⟨seen.toAlike, fun _ => seen, fun body same => absurd same (key body)⟩
  cases l with
  | pass st | lapse =>
      refine ⟨alike_changed _ ty v, ?_, nofun⟩
      rintro ⟨loops, st, told⟩
      exact absurd rfl told
  | finished | cut | reject => exact goes.elim
  | key body =>
      have seen : SeenAlike ((Look.key body).ready loops ctx) ((Look.key body).ready loops { ctx with ty := ty, v := v }) :=
        ⟨⟨rfl, rfl, rfl, rfl, rfl, rfl, rfl⟩, rfl, fun _ => rfl⟩
      exact ⟨seen.toAlike, fun _ => seen, fun _ _ => rfl⟩
  | string body => exact other ⟨⟨rfl, rfl, rfl, rfl, rfl, rfl, rfl⟩, rfl, fun _ => rfl⟩ nofun
  | number chars =>
      rcases passes with ⟨c, cs, d, after, rfl, -⟩
      exact other ⟨⟨rfl, rfl, rfl, rfl, rfl, rfl, rfl⟩, rfl, fun _ => rfl⟩ nofun
  | token chars =>
      exact other (tokenValue_alike ctx.idx (ctx.tokEnded (ctx.idx + (chars.length - 1))) rfl v) nofun
  | enter k =>
      refine other ⟨⟨rfl, rfl, rfl, rfl, rfl, rfl, rfl⟩, rfl, fun member => ?_⟩ nofun
      cases k <;> exact member.elim
  | leave =>
      refine other ⟨⟨rfl, rfl, rfl, rfl, rfl, rfl, rfl⟩, rfl, fun member => ?_⟩ nofun
      rcases loops with _ | ⟨_ | _, loops⟩ <;> exact member.elim

/-- Only a key is told to the callback for keys. -/
theorem key_notice {st : JsonState} {n : Notice} (told : n ∈ l.notices loops st) (key : n.callback = .key) :
    ∃ body, l = .key body := by
  have slot (m : Nat) : (slotNotice m loops).callback ≠ .key := by
    rcases loops with _ | ⟨_ | _, loops⟩ <;> exact nofun
  have start (k : JsonCallback) (m : Nat) : (startNotice k m loops).callback = k := by
    rcases loops with _ | ⟨_ | _, loops⟩ <;> rfl
  cases l with
  | key body => exact ⟨body, rfl⟩
  | string | number | token =>
      rcases List.mem_singleton.mp told with rfl
      exact absurd key (slot _)
  | enter k =>
      cases k with
      | object =>
          rcases List.mem_cons.mp told with rfl | told
          · rw [start] at key
            cases key
          · rcases List.mem_singleton.mp told with rfl
            by_cases outside : loops = []
            · rw [if_pos outside] at key
              cases key
            · rw [if_neg outside] at key
              exact absurd key (slot _)
      | array =>
          rcases List.mem_cons.mp told with rfl | told
          · rw [start] at key
            cases key
          · rcases List.mem_singleton.mp told with rfl
            exact absurd key (slot _)
  | leave =>
      rcases loops with _ | ⟨_ | _, loops⟩
      · exact absurd told List.not_mem_nil
      · rcases List.mem_singleton.mp told with rfl
        cases key
      · rcases List.mem_singleton.mp told with rfl
        cases key
  | _ => exact absurd told List.not_mem_nil

theorem call_alike (discreet : Discreet handlers) (n : Notice) (seen : SeenAlike ctx ctx')
    (key : n.callback = .key → ctx.ty = .string) :
    (∃ ctx₁ ctx₁', (handlers.noticed n).call ctx = .ok ctx₁ ∧ (handlers.noticed n).call ctx' = .ok ctx₁' ∧
      SeenAlike ctx₁ ctx₁' ∧ ctx₁.ty = ctx.ty) ∨
    ∃ res ctx₁ ctx₁', (handlers.noticed n).call ctx = .error (res, ctx₁) ∧
      (handlers.noticed n).call ctx' = .error (res, ctx₁') ∧ SeenAlike ctx₁ ctx₁' := by
  cases set : (handlers.get n.callback).cb with
  | none => exact .inl ⟨ctx, ctx', by simp [JsonHandlers.noticed, JsonHandler.call, set],
      by simp [JsonHandlers.noticed, JsonHandler.call, set], seen, rfl⟩
  | some cb =>
      have same := discreet n.callback cb set ctx ctx' seen key (handlers.get n.data).udata
      rcases ran : cb ctx (handlers.get n.data).udata with ⟨res, stack, world⟩
      rw [ran] at same
      have after : SeenAlike { ctx with stack := stack, world := world } { ctx' with stack := stack, world := world } :=
        ⟨⟨seen.input, seen.st, seen.flags, seen.idx, seen.nest, rfl, rfl⟩, seen.ty, seen.v⟩
      by_cases zero : res = 0
      · refine .inl ⟨_, _, ?_, ?_, after, rfl⟩
        · simp [JsonHandlers.noticed, JsonHandler.call, set, ran, zero]
        · simp [JsonHandlers.noticed, JsonHandler.call, set, ← same, zero]
      · refine .inr ⟨.callback res, _, _, ?_, ?_, after⟩
        · simp [JsonHandlers.noticed, JsonHandler.call, set, ran, zero]
        · simp [JsonHandlers.noticed, JsonHandler.call, set, ← same, zero]

/-- What the client can tell of a context that a parse has left. -/
structure LeftAlike (ctx ctx' : JsonCtx U A) : Prop where
  idx : ctx.idx = ctx'.idx
  nest : ctx.nest = ctx'.nest
  stack : ctx.stack = ctx'.stack
  world : ctx.world = ctx'.world
  consistent : jsonCtxConsistent ctx = jsonCtxConsistent ctx'

theorem Alike.left (alike : Alike ctx ctx') : LeftAlike ctx ctx' where
  idx := alike.idx
  nest := alike.nest
  stack := alike.stack
  world := alike.world
  consistent := by rw [alike.eq]; rfl

theorem reset_simulation (discreet : Discreet handlers) :
    Simulation handlers handlers Alike ToldAlike LeftAlike where
  place ctx ctx' alike := ⟨alike.input.symm, alike.idx.symm, alike.st.symm⟩
  ready := by
    intro ctx ctx' loops l alike looks goes
    have passes := look_passes loops ctx.st (ctx.input.drop ctx.idx)
    rw [looks] at passes
    exact ready_alike alike passes goes
  call := by
    intro loops st l ctx ctx' n among told
    have some : l.notices loops st ≠ [] := List.ne_nil_of_mem among
    have string (key : n.callback = .key) : ctx.ty = .string := by
      rcases key_notice among key with ⟨body, same⟩
      exact told.key body same
    rcases call_alike discreet n (told.seen ⟨loops, st, some⟩) string with
      ⟨ctx₁, ctx₁', run, run', after, ty⟩ | ⟨res, ctx₁, ctx₁', run, run', after⟩
    · refine .inl ⟨ctx₁, ctx₁', run, run', after.toAlike, fun _ => after, fun body same => ?_⟩
      rw [ty]
      exact told.key body same
    · exact .inr ⟨res, ctx₁, ctx₁', run, run', after.left⟩
  settled := by
    intro ctx ctx' l told
    rw [told.toAlike.eq]
    cases l <;> exact alike_changed _ _ _
  finished := by
    intro ctx ctx' n alike
    rw [alike.eq]
    exact (alike_changed _ _ _).left
  rejected ctx ctx' alike := alike.left
  cut := by
    intro ctx ctx' ctx₁ ctx₁' alike cut cut'
    have input : ctx₁.input = ctx₁'.input := cut.input.trans (alike.input.trans cut'.input.symm)
    have idx : ctx₁.idx = ctx₁'.idx := by rw [cut.idx, cut'.idx, alike.input]
    have nest : ctx₁.nest = ctx₁'.nest := cut.nest.trans (alike.nest.trans cut'.nest.symm)
    have stack : ctx₁.stack = ctx₁'.stack := cut.stack.trans (alike.stack.trans cut'.stack.symm)
    refine ⟨idx, nest, stack, cut.world.trans (alike.world.trans cut'.world.symm), ?_⟩
    rw [jsonCtxConsistent, jsonCtxConsistent, input, idx, nest, stack, cut.inside, cut'.inside]

/-! All that the callbacks find. -/

structure Sight (U A : Type) where
  callback : JsonCallback
  udata : U
  st : JsonState
  flags : JsonFlags
  ty : JsonType
  v : Option JsonV
  slice : Option (List UInt8)
  idx : Nat
  nest : Int
  stack : List U
  world : A
  result : Int
  deriving DecidableEq

def sightOf (k : JsonCallback) (udata : U) (ctx : JsonCtx U A) (res : Int) : Sight U A where
  callback := k
  udata := udata
  st := ctx.st
  flags := ctx.flags
  ty := ctx.ty
  v := if ctx.ty.HasMember then some ctx.v else none
  slice := if ctx.ty.HasMember then some (sliceOf ctx) else none
  idx := ctx.idx
  nest := ctx.nest
  stack := ctx.stack
  world := ctx.world
  result := res

def JsonCtx.unsighted (ctx : JsonCtx U (A × List (Sight U A))) : JsonCtx U A := { ctx with world := ctx.world.1 }

def JsonHandler.sighted (k : JsonCallback) (h : JsonHandler U A) : JsonHandler U (A × List (Sight U A)) where
  cb := h.cb.map fun cb ctx udata =>
    let (res, stack, world) := cb ctx.unsighted udata
    (res, stack, world, ctx.world.2 ++ [sightOf k udata ctx.unsighted res])
  udata := h.udata

def JsonHandlers.sighted (handlers : JsonHandlers U A) : JsonHandlers U (A × List (Sight U A)) where
  ostart := handlers.ostart.sighted .ostart
  ostop := handlers.ostop.sighted .ostop
  astart := handlers.astart.sighted .astart
  astop := handlers.astop.sighted .astop
  key := handlers.key.sighted .key
  value := handlers.value.sighted .value
  item := handlers.item.sighted .item

/-- All that the callbacks find in a parse, in their order. -/
def sights (handlers : JsonHandlers U A) (text : List UInt8) (ctx : JsonCtx U A) : List (Sight U A) :=
  (leftBy (jsonParse handlers.sighted text { ctx with world := (ctx.world, []) })).world.2

theorem sighted_get (handlers : JsonHandlers U A) (k : JsonCallback) :
    handlers.sighted.get k = (handlers.get k).sighted k := by
  cases k <;> rfl

theorem sightOf_alike (k : JsonCallback) (udata : U) (res : Int) (seen : SeenAlike ctx ctx') :
    sightOf k udata ctx res = sightOf k udata ctx' res := by
  have ty := seen.ty
  have v := seen.v
  rw [seen.toAlike.eq] at ty v ⊢
  generalize ctx'.v = v' at v
  change ctx.ty = ctx'.ty at ty
  rw [← ty]
  by_cases member : ctx.ty.HasMember
  · have same : ctx.v = v' := v member
    rw [← same]
  · simp [sightOf, member]

theorem unsighted_alike {ctx ctx' : JsonCtx U (A × List (Sight U A))} (seen : SeenAlike ctx ctx') :
    SeenAlike ctx.unsighted ctx'.unsighted :=
  ⟨⟨seen.input, seen.st, seen.flags, seen.idx, seen.nest, seen.stack, congrArg Prod.fst seen.world⟩, seen.ty, seen.v⟩

theorem sighted_discreet (discreet : Discreet handlers) : Discreet handlers.sighted := by
  intro k cb set ctx ctx' seen key udata
  rw [sighted_get] at set
  rcases Option.map_eq_some_iff.mp set with ⟨cb', set', rfl⟩
  have same := discreet k cb' set' _ _ (unsighted_alike seen) key udata
  have sight (res : Int) := sightOf_alike k udata res (unsighted_alike seen)
  simp only [same, sight, seen.world]

theorem jsonReset_alike (old junk : JsonCtx U (Keyed A)) (cb : Option (JsonCb U (Keyed A))) (udata : U) :
    Alike (jsonReset old) (jsonInitKeyed { junk with world := old.world } cb udata).1 :=
  ⟨rfl, rfl, rfl, rfl, rfl, rfl, rfl⟩

/-- Whatever a context has been used for, after a reset it is as good as a new one. -/
theorem jsonReset_fresh (handlers : JsonHandlers U (Keyed A)) (discreet : Discreet handlers)
    (old junk : JsonCtx U (Keyed A)) (cb : Option (JsonCb U (Keyed A))) (udata : U) (text : List UInt8) :
    let fresh := (jsonInitKeyed { junk with world := old.world } cb udata).1
    sights handlers text (jsonReset old) = sights handlers text fresh ∧
      resultOf (jsonParse handlers text (jsonReset old)) = resultOf (jsonParse handlers text fresh) ∧
      LeftAlike (leftBy (jsonParse handlers text (jsonReset old))) (leftBy (jsonParse handlers text fresh)) := by
  intro fresh
  have plain := @Simulation.jsonParse U _ _ handlers handlers _ _ _ (jsonReset old) fresh text
    (reset_simulation discreet) rfl rfl rfl ⟨rfl, rfl, rfl, rfl, rfl, rfl, rfl⟩
  have noted := @Simulation.jsonParse U _ _ handlers.sighted handlers.sighted _ _ _
    { jsonReset old with world := ((jsonReset old).world, []) } { fresh with world := (fresh.world, []) } text
    (reset_simulation (sighted_discreet discreet)) rfl rfl rfl ⟨rfl, rfl, rfl, rfl, rfl, rfl, rfl⟩
  exact ⟨congrArg Prod.snd noted.left.world, plain.result, plain.left⟩

/-- A client that keeps the keys and pushes itself when a container begins. -/
def keeping : JsonHandlers Nat (Keyed Nat) where
  ostart := ⟨some fun ctx udata => (0, udata :: ctx.stack, ctx.world), 0⟩
  ostop := ⟨some fun ctx _ => (0, ctx.stack.tail, ctx.world), 0⟩
  astart := ⟨none, 0⟩
  astop := ⟨none, 0⟩
  key := ⟨some jsonCtxNoticeKey, 0⟩
  value := ⟨some fun ctx _ => (0, ctx.stack, { ctx.world with client := ctx.world.client + ctx.idx }), 0⟩
  item := ⟨none, 0⟩

theorem keeping_discreet : Discreet keeping := by
  intro k cb set ctx ctx' seen key udata
  cases k with
  | ostart | ostop | value =>
      cases set
      simp only [seen.stack, seen.world, seen.idx]
  | key =>
      cases set
      have same : sliceOf ctx = sliceOf ctx' := by
        have v := seen.v (by rw [key rfl]; trivial)
        rw [sliceOf, sliceOf, v, seen.input]
      simp only [jsonCtxNoticeKey, same, seen.stack, seen.world]
  | astart | astop | item => cases set

def unused : JsonCtx Nat (Keyed Nat) :=
  (jsonInitKeyed { blank (⟨none, 5⟩ : Keyed Nat) with stack := ([] : List Nat) } none 0).1

/-- The old text is `{"a":"b`, which is cut off, and the new one is `{"b":1}`. -/
theorem reset_sample :
    let old := leftBy (jsonParse keeping [123, 34, 97, 34, 58, 34, 98] unused)
    let fresh := (jsonInitKeyed { unused with world := old.world } none 0).1
    old.world.currentKey = some [97] ∧
      sights keeping [123, 34, 98, 34, 58, 49, 125] (jsonReset old) = sights keeping [123, 34, 98, 34, 58, 49, 125] fresh ∧
      resultOf (jsonParse keeping [123, 34, 98, 34, 58, 49, 125] (jsonReset old)) =
        resultOf (jsonParse keeping [123, 34, 98, 34, 58, 49, 125] fresh) ∧
      LeftAlike (leftBy (jsonParse keeping [123, 34, 98, 34, 58, 49, 125] (jsonReset old)))
        (leftBy (jsonParse keeping [123, 34, 98, 34, 58, 49, 125] fresh)) := by
  intro old fresh
  exact ⟨by decide +kernel, jsonReset_fresh keeping keeping_discreet old unused none 0 _⟩

end MnCommon.JsonParser
