import MnCommon.JsonParser.Nesting

/-! What becomes of the result of a callback. -/

namespace MnCommon.JsonParser

variable {U A : Type} {handlers : JsonHandlers U A} {text : List UInt8} {sites : List Site}
  {calls made more : List (Call U)} {call : Call U} {stop : Option (Site × Int)} {res : Int} {failed : Failure}

/-- An array stands directly in an array. -/
def ArrayInArray : List Container → Prop
  | inner :: outer :: loops => (inner = .array ∧ outer = .array) ∨ ArrayInArray (outer :: loops)
  | _ => False

instance decidableArrayInArray : (loops : List Container) → Decidable (ArrayInArray loops)
  | [] => isFalse id
  | [_] => isFalse id
  | inner :: outer :: loops =>
      have := decidableArrayInArray (outer :: loops)
      inferInstanceAs (Decidable ((inner = .array ∧ outer = .array) ∨ ArrayInArray (outer :: loops)))

theorem relabel_array (loops : List Container) : relabel loops (.array 4) = .array 4 := by
  induction loops with
  | nil => rfl
  | cons inner loops ih =>
      cases loops with
      | nil => rfl
      | cons outer loops =>
          rw [relabel]
          have same : betweenLabel outer inner (.array 4) = .array 4 := by
            rw [betweenLabel]
            split_ifs <;> rfl
          rw [same]
          exact ih

theorem relabel_eq (loops : List Container) (failed : Failure) :
    relabel loops failed = if ArrayInArray loops then .array 4 else failed := by
  induction loops with
  | nil => rfl
  | cons inner loops ih =>
      cases loops with
      | nil => rfl
      | cons outer loops =>
          rw [relabel, betweenLabel]
          by_cases both : outer = .array ∧ inner = .array
          · have inside : ArrayInArray (inner :: outer :: loops) := .inl ⟨both.2, both.1⟩
            rw [if_pos both, if_pos inside]
            exact relabel_array _
          · have same : ArrayInArray (inner :: outer :: loops) ↔ ArrayInArray (outer :: loops) :=
              or_iff_right fun wrong => both ⟨wrong.2, wrong.1⟩
            rw [if_neg both, ih]
            simp only [same]

/-- The number of the result of an array that the client gets in place of that of a callback. -/
def Site.replacement (site : Site) : Option Nat := if ArrayInArray site.loops then some 4 else site.notice.code

theorem relabel_site (site : Site) (res : Int) :
    relabel site.loops (site.notice.label (.callback res)) =
      match site.replacement with
      | none => .callback res
      | some n => .array n := by
  rw [relabel_eq, Site.replacement]
  split_ifs with both
  · rfl
  · rw [Notice.label]
    cases site.notice.code <;> rfl

/-- The first call that does not return 0 is the last one. -/
theorem Heard.refused (heard : Heard handlers sites calls stop) (same : calls = made ++ call :: more)
    (returned : call.result = some res) (nonzero : res ≠ 0) :
    more = [] ∧ ∃ site, sites[made.length]? = some site ∧ stop = some (site, res) := by
  induction heard generalizing made with
  | nil => exact absurd same.symm (by simp)
  | @next site sites call' calls stop meets zero heard ih =>
      cases made with
      | nil =>
          cases same
          rw [returned] at zero
          exact absurd zero nonzero
      | cons first made =>
          cases same
          exact ih rfl
  | @stop site sites call' res' meets returned' nonzero' =>
      cases made with
      | nil =>
          cases same
          rw [returned] at returned'
          cases returned'
          exact ⟨rfl, site, rfl, rfl⟩
      | cons first made =>
          have length := congrArg List.length same
          simp at length

theorem Heard.unrefused (heard : Heard handlers sites calls stop) (zero : ∀ call ∈ calls, call.result.getD 0 = 0) :
    stop = none := by
  induction heard with
  | nil => rfl
  | next _ _ _ ih => exact ih fun call inside => zero call (List.mem_cons_of_mem _ inside)
  | stop meets returned nonzero =>
      have wrong := zero _ List.mem_cons_self
      rw [returned] at wrong
      exact absurd wrong nonzero

/-- With the values that the results have in C, the client gets what its callback has returned
exactly if no array puts another value in its place, and it is told that the text is cut off
exactly if no array stands directly in an array there. -/
theorem jsonParse_propagates (handlers : JsonHandlers U A) (junk : JsonCtx U A) (cb : Option (JsonCb U A)) (udata : U)
    (text : List UInt8) (code : Failure → Int) (own : ∀ res, code (.callback res) = res)
    (needMore : code .needMore = -2) :
    (∀ made call res more, callsMade handlers text (jsonInit junk cb udata).1 = made ++ call :: more →
      call.result = some res → res ≠ 0 → more = [] ∧ ∃ site, (callSites text)[made.length]? = some site ∧
        ((resultOf (jsonParse handlers text (jsonInit junk cb udata).1)).map code = some res ↔
          ∀ n, site.replacement = some n → code (.array n) = res)) ∧
    ((∀ call ∈ callsMade handlers text (jsonInit junk cb udata).1, call.result.getD 0 = 0) →
      (lastReader text).look = .cut →
        ((resultOf (jsonParse handlers text (jsonInit junk cb udata).1)).map code = some (-2) ↔
          (ArrayInArray (lastReader text).loops → code (.array 4) = -2))) := by
  rcases jsonParse_heard handlers text (jsonInit junk cb udata).1 rfl rfl rfl with ⟨stop, heard, outcome⟩
  constructor
  · intro made call res more same returned nonzero
    rcases heard.refused same returned nonzero with ⟨last, site, place, rfl⟩
    refine ⟨last, site, place, ?_⟩
    have result : resultOf (jsonParse handlers text (jsonInit junk cb udata).1) = _ := outcome
    rw [result, relabel_site, Option.map_some, Option.some.injEq]
    cases site.replacement with
    | none => simp [own]
    | some n => simp
  · intro zero cut
    cases heard.unrefused zero
    rw [Outcome, Stops, cut] at outcome
    rw [outcome, relabel_eq, Option.map_some, Option.some.injEq]
    split_ifs with both
    · simp [both]
    · simp [both, needMore]

/-- Values for the results, as a build might choose them. -/
def sampleCode : Failure → Int
  | .needMore => -2
  | .callback res => res
  | .str n => 100 + n
  | .num n => 200 + n
  | .tok n => 300 + n
  | .obj n => 400 + n
  | .array n => 500 + n
  | .outOfFuel => -1

/-- A client that does not want an integer. -/
def refusing : JsonHandlers Unit Unit :=
  (jsonInit (blank ()) (some fun ctx _ => (if ctx.ty = .int then 7 else 0, ctx.stack, ctx.world)) ()).2

/-- The value of `{"a":1}` is refused. -/
theorem propagates_sample : ∃ site, (callSites [123, 34, 97, 34, 58, 49, 125])[3]? = some site ∧
    ((resultOf (jsonParse refusing [123, 34, 97, 34, 58, 49, 125] (jsonInit (blank ()) none ()).1)).map sampleCode =
      some 7 ↔ ∀ n, site.replacement = some n → sampleCode (.array n) = 7) := by
  have propagates := jsonParse_propagates refusing (blank ()) none () [123, 34, 97, 34, 58, 49, 125] sampleCode
    (fun _ => rfl) rfl
  have refused := propagates.1
    [⟨.ostart, (), ⟨.ostart, .object, 0, .none⟩, some 0⟩, ⟨.value, (), ⟨.value, .object, 0, .none⟩, some 0⟩,
      ⟨.key, (), ⟨.key, .string, 1, .text [97]⟩, some 0⟩]
    ⟨.value, (), ⟨.value, .int, 1, .integer 1⟩, some 7⟩ 7 [] (by decide +kernel) rfl (by decide)
  exact refused.2

/-- The client refuses the item of `[1]`, and the text `[[1` is cut off. -/
theorem propagates_not :
    (callsMade refusing [91, 49, 93] (jsonInit (blank ()) none ()).1).map (·.result) = [some 0, some 0, some 7] ∧
    resultOf (jsonParse refusing [91, 49, 93] (jsonInit (blank ()) none ()).1) = some (.array 9) ∧
    (lastReader [91, 91, 49]).look = .cut ∧
    resultOf (jsonParse willing [91, 91, 49] (jsonInit (blank ()) none ()).1) = some (.array 4) := by
  refine ⟨?_, ?_, ?_, ?_⟩
  all_goals decide +kernel

end MnCommon.JsonParser
