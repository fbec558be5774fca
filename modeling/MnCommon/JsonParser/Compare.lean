import MnCommon.JsonParser.Walk

/-! Two parses of one text, side by side. -/

namespace MnCommon.JsonParser

variable {U A B : Type}

/-- The result of a parse, if it is not 0. -/
def resultOf {X : Type} (run : Except (Failure × X) X) : Option Failure :=
  match run with
  | .ok _ => none
  | .error failed => some failed.1

/-- Where a parse leaves its context. -/
def leftBy {X : Type} (run : Except (Failure × X) X) : X :=
  match run with
  | .ok ctx => ctx
  | .error failed => failed.2

/-- Two runs come to the same. -/
structure Same {X Y : Type} (F : X → Y → Prop) (run : Except (Failure × X) X) (run' : Except (Failure × Y) Y) :
    Prop where
  result : resultOf run = resultOf run'
  left : F (leftBy run) (leftBy run')

/-- What two clients have to keep: `S` between the turns, `T` when a callback is due, and
`F` in the end. -/
structure Simulation (handlers : JsonHandlers U A) (handlers' : JsonHandlers U B)
    (S : JsonCtx U A → JsonCtx U B → Prop) (T : Look → JsonCtx U A → JsonCtx U B → Prop)
    (F : JsonCtx U A → JsonCtx U B → Prop) : Prop where
  place : ∀ ctx ctx', S ctx ctx' → ctx'.input = ctx.input ∧ ctx'.idx = ctx.idx ∧ ctx'.st = ctx.st
  ready : ∀ ctx ctx' loops l, S ctx ctx' → look loops ctx.st (ctx.input.drop ctx.idx) = l → l.Goes →
    T l (l.ready loops ctx) (l.ready loops ctx')
  call : ∀ loops st l ctx ctx' n, n ∈ l.notices loops st → T l ctx ctx' →
    (∃ ctx₁ ctx₁', (handlers.noticed n).call ctx = .ok ctx₁ ∧ (handlers'.noticed n).call ctx' = .ok ctx₁' ∧
      T l ctx₁ ctx₁') ∨
    ∃ res ctx₁ ctx₁', (handlers.noticed n).call ctx = .error (res, ctx₁) ∧
      (handlers'.noticed n).call ctx' = .error (res, ctx₁') ∧ F ctx₁ ctx₁'
  settled : ∀ ctx ctx' l, T l ctx ctx' → S (l.settled ctx) (l.settled ctx')
  finished : ∀ ctx ctx' n, S ctx ctx' → F { ctx with idx := ctx.idx + n } { ctx' with idx := ctx'.idx + n }
  rejected : ∀ ctx ctx', S ctx ctx' → F ctx ctx'
  cut : ∀ ctx ctx' ctx₁ ctx₁', S ctx ctx' → Cut ctx ctx₁ → Cut ctx' ctx₁' → F ctx₁ ctx₁'

variable {handlers : JsonHandlers U A} {handlers' : JsonHandlers U B} {S F : JsonCtx U A → JsonCtx U B → Prop}
  {T : Look → JsonCtx U A → JsonCtx U B → Prop} {ctx : JsonCtx U A} {ctx' : JsonCtx U B}

theorem Simulation.tell (simulation : Simulation handlers handlers' S T F) (loops : List Container) (st : JsonState)
    (l : Look) (ns : List Notice) (among : ∀ n ∈ ns, n ∈ l.notices loops st) (related : T l ctx ctx') :
    (∃ ctx₁ ctx₁', tell handlers ns ctx = .ok ctx₁ ∧ tell handlers' ns ctx' = .ok ctx₁' ∧ T l ctx₁ ctx₁') ∨
      ∃ res ctx₁ ctx₁', tell handlers ns ctx = .error (res, ctx₁) ∧ tell handlers' ns ctx' = .error (res, ctx₁') ∧
        F ctx₁ ctx₁' := by
  induction ns generalizing ctx ctx' with
  | nil => exact .inl ⟨ctx, ctx', rfl, rfl, related⟩
  | cons n ns ih =>
      rcases List.forall_mem_cons.mp among with ⟨here, others⟩
      rcases simulation.call loops st l ctx ctx' n here related with
        ⟨ctx₁, ctx₁', run, run', related'⟩ | ⟨res, ctx₁, ctx₁', run, run', ended⟩
      · rw [JsonParser.tell, JsonParser.tell, run, run']
        exact ih others related'
      · refine .inr ⟨if res = .outOfFuel then .outOfFuel else n.label res, ctx₁, ctx₁', ?_, ?_, ended⟩
        · rw [JsonParser.tell, run]
          rfl
        · rw [JsonParser.tell, run']
          rfl

theorem tell_ok {ns : List Notice} {ctx₁ : JsonCtx U A} (run : JsonParser.tell handlers ns ctx = .ok ctx₁) :
    ∃ stack world, ctx₁ = { ctx with stack := stack, world := world } := by
  induction ns generalizing ctx with
  | nil =>
      cases run
      exact ⟨_, _, rfl⟩
  | cons n ns ih =>
      rcases Memory.of_bind_ok run with ⟨ctx₂, called, more⟩
      rcases call_ok (of_labelled called) with ⟨stack, world, rfl⟩
      rcases ih more with ⟨stack', world', same⟩
      exact ⟨stack', world', same⟩

/-- What holds of each turn holds of the runs. -/
theorem Simulation.resume (simulation : Simulation handlers handlers' S T F) (fuel : Nat) (r : Reader)
    (stands : Stands r ctx) (related : S ctx ctx') (enough : r.rest.length < fuel) :
    Same F (JsonParser.resume handlers r.loops ctx) (JsonParser.resume handlers' r.loops ctx') := by
  induction fuel generalizing r ctx ctx' with
  | zero => exact absurd enough (Nat.not_lt_zero _)
  | succ fuel ih =>
      rcases simulation.place ctx ctx' related with ⟨input, idx, st⟩
      have looks : look r.loops ctx.st (ctx.input.drop ctx.idx) = r.look := by
        rw [stands.st, stands.left]
        rfl
      have looks' : look r.loops ctx'.st (ctx'.input.drop ctx'.idx) = r.look := by rw [input, idx, st, looks]
      by_cases goes : r.look.Goes
      · rw [resume_look looks goes, resume_look looks' goes, Look.told, Look.told, st]
        rcases simulation.tell r.loops ctx.st r.look _ (fun n told => told)
          (simulation.ready ctx ctx' r.loops r.look related looks goes) with
          ⟨ctx₁, ctx₁', run, run', related'⟩ | ⟨res, ctx₁, ctx₁', run, run', ended⟩
        · rw [run, run']
          rcases tell_ok run with ⟨stack, world, rfl⟩
          have shorter := after_shorter goes
          exact ih r.after (stands_after stands goes stack world) (simulation.settled _ _ _ related') (by omega)
        · rw [run, run']
          exact ⟨rfl, ended⟩
      · cases stuck : r.look with
        | finished =>
            rw [resume_finished handlers (looks.trans stuck), resume_finished handlers' (looks'.trans stuck)]
            exact ⟨rfl, simulation.finished ctx ctx' _ related⟩
        | cut =>
            rcases resume_cut handlers (looks.trans stuck) with ⟨ctx₁, run, cut⟩
            rcases resume_cut handlers' (looks'.trans stuck) with ⟨ctx₁', run', cut'⟩
            rw [run, run']
            exact ⟨rfl, simulation.cut ctx ctx' ctx₁ ctx₁' related cut cut'⟩
        | reject res =>
            rw [resume_reject handlers (looks.trans stuck), resume_reject handlers' (looks'.trans stuck)]
            exact ⟨rfl, simulation.rejected ctx ctx' related⟩
        | _ =>
            rw [stuck] at goes
            exact absurd trivial goes

theorem stands_start {text : List UInt8} (st : ctx.st = .start) (idx : ctx.idx = 0) (nest : ctx.nest = -1) :
    Stands (Reader.start text) { ctx with input := text } where
  st := st
  left := by
    change text.drop ctx.idx = text
    rw [idx, List.drop_zero]
  nest := nest
  held := Nat.le_refl _

theorem Simulation.jsonParse {text : List UInt8} (simulation : Simulation handlers handlers' S T F)
    (st : ctx.st = .start) (idx : ctx.idx = 0) (nest : ctx.nest = -1)
    (related : S { ctx with input := text } { ctx' with input := text }) :
    Same F (JsonParser.jsonParse handlers text ctx) (JsonParser.jsonParse handlers' text ctx') := by
  rw [jsonParse_top, jsonParse_top]
  exact simulation.resume (text.length + 1) (Reader.start text) (stands_start st idx nest) related
    (Nat.lt_succ_self _)

end MnCommon.JsonParser
