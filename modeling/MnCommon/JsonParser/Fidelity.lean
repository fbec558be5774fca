import MnCommon.Grammars.Rfc7159
import MnCommon.JsonParser.Accept

/-! The parser and RFC 7159. -/

namespace MnCommon.JsonParser

open Grammars

variable {U A : Type} {handlers : JsonHandlers U A} {text before before' seg seg' after rest rest' cut : List UInt8}
  {v v' : Json} {x : Lexeme}

/-- Callbacks of a client that lets every text pass. -/
def Quiet (handlers : JsonHandlers U A) : Prop :=
  ∀ k cb, (handlers.get k).cb = some cb → ∀ ctx udata, (cb ctx udata).1 = 0 ∧ (cb ctx udata).2.1 = ctx.stack

/-- A callback of which the calls are noted down, also where none is set. -/
def JsonHandler.watched (k : JsonCallback) (h : JsonHandler U A) : JsonHandler U (A × List Event) where
  cb := some fun ctx udata =>
    let (res, stack, world) :=
      match h.cb with
      | none => (0, ctx.stack, ctx.world.1)
      | some cb => cb { ctx with world := ctx.world.1 } udata
    (res, stack, world, ctx.world.2 ++ [observe k ctx])
  udata := h.udata

def JsonHandlers.watched (handlers : JsonHandlers U A) : JsonHandlers U (A × List Event) where
  ostart := handlers.ostart.watched .ostart
  ostop := handlers.ostop.watched .ostop
  astart := handlers.astart.watched .astart
  astop := handlers.astop.watched .astop
  key := handlers.key.watched .key
  value := handlers.value.watched .value
  item := handlers.item.watched .item

theorem watched_get (handlers : JsonHandlers U A) (k : JsonCallback) :
    handlers.watched.get k = (handlers.get k).watched k := by
  cases k <;> rfl

/-- The calls follow those of a list. -/
theorem Quiet.watched (quiet : Quiet handlers) (noted : List Event) :
    Follows handlers.watched fun world events => world.2 = noted ++ events := by
  constructor
  intro k udata ctx events known
  cases cb : (handlers.get k).cb with
  | none =>
      refine ⟨(ctx.world.1, ctx.world.2 ++ [observe k ctx]), ?_, ?_⟩
      · simp [watched_get, JsonHandler.watched, JsonHandler.call, cb]
      · rw [known, List.append_assoc]
  | some cb' =>
      rcases quiet k cb' cb { ctx with world := ctx.world.1 } udata with ⟨res, stack⟩
      refine ⟨((cb' { ctx with world := ctx.world.1 } udata).2.2, ctx.world.2 ++ [observe k ctx]), ?_, ?_⟩
      · simp [watched_get, JsonHandler.watched, JsonHandler.call, cb, res, stack]
      · rw [known, List.append_assoc]

theorem Quiet.follows (quiet : Quiet handlers) : Follows handlers fun _ _ => True := by
  constructor
  intro k udata ctx events _
  cases cb : (handlers.get k).cb with
  | none => exact ⟨ctx.world, by simp [JsonHandler.call, cb], trivial⟩
  | some cb' =>
      rcases quiet k cb' cb ctx udata with ⟨res, stack⟩
      exact ⟨(cb' ctx udata).2.2, by simp [JsonHandler.call, cb, res, stack], trivial⟩

/-- The text is parsed to its end. -/
def Accepts (handlers : JsonHandlers U A) (ctx : JsonCtx U A) (text : List UInt8) : Prop :=
  ∃ ctx', jsonParse handlers text ctx = .ok ctx' ∧ jsonCtxConsistent ctx' = 0

/-- RFC 7159 as far as it is written with these spaces and without a plus. -/
def plain : Lexicon where
  space c := c = 32 ∨ c = 9 ∨ c = 10
  allows
    | .number chars => Number chars ∧ 43 ∉ chars
    | x => rfc7159.allows x

theorem plain_rfc7159 (allowed : plain.allows x) : rfc7159.allows x := by
  cases x with
  | number chars => exact allowed.1
  | _ => exact allowed

/-- Nothing but the plus is missing. -/
theorem rfc7159_loose (allowed : rfc7159.allows x) (plus : ∀ chars, x = .number chars → 43 ∉ chars) :
    loose.allows x := by
  cases x with
  | string body => exact Chars.closed allowed
  | number chars =>
      rcases Number.begins allowed with ⟨c, cs, rfl, first, others⟩
      refine ⟨c, cs, rfl, first, fun x inside => ?_⟩
      rcases others x inside with digit | rfl | rfl | rfl | rfl | rfl
      · exact .inl digit
      · exact .inr (.inl rfl)
      · exact .inr (.inr (.inl rfl))
      · exact .inr (.inr (.inr (.inl rfl)))
      · exact .inr (.inr (.inr (.inr rfl)))
      · exact absurd (List.mem_cons_of_mem _ inside) (plus _ rfl)
  | token chars =>
      rcases Literal.letters allowed with ⟨c, cs, rfl, first, others⟩
      exact ⟨c, cs, rfl, first, fun x inside => .inl (others x inside)⟩
  | comma => trivial

theorem plain_loose (allowed : plain.allows x) : loose.allows x := by
  apply rfc7159_loose (plain_rfc7159 allowed)
  rintro chars rfl
  exact allowed.2

theorem no_plus_of_loose {chars : List UInt8} (allowed : loose.allows (.number chars)) : 43 ∉ chars := by
  rcases allowed with ⟨c, cs, rfl, first, others⟩
  intro plus
  rcases List.mem_cons.mp plus with rfl | later
  · exact absurd first (by decide)
  · exact absurd (others 43 later) (by decide)

theorem loose_widest (allowed : loose.allows x) : widest.allows x := by
  cases x with
  | string body => exact allowed
  | number chars =>
      rcases allowed with ⟨c, cs, rfl, first, others⟩
      exact ⟨c, cs, rfl, first, fun x inside => (others x inside).word⟩
  | token chars =>
      rcases allowed with ⟨c, cs, rfl, first, others⟩
      exact ⟨c, cs, rfl, first, fun x inside => (others x inside).word⟩
  | comma => trivial

theorem spaces_before {L : Lexicon} (narrow : ∀ c, L.space c → rfc7159.space c) (spaces : L.Spaces before) :
    ∀ c ∈ before, c ≠ 0 ∧ c ≠ 123 ∧ c ≠ 91 := by
  intro c inside
  rcases narrow c (spaces c inside) with rfl | rfl | rfl | rfl <;> decide

theorem reading_of_spaces {L : Lexicon} (narrow : ∀ c, L.space c → rfc7159.space c) (container : v.Container)
    (derived : Derives loose (.value v) seg) (spaces : L.Spaces before) (spaces' : L.Spaces after) :
    Reading v before seg after where
  before := spaces_before narrow spaces
  container := container
  derived := derived
  after c inside := (spaces_before narrow spaces' c inside).1

theorem loose_space (c : UInt8) (space : loose.space c) : rfc7159.space c := by
  rcases space with rfl | rfl | rfl
  · exact .inl rfl
  · exact .inr (.inl rfl)
  · exact .inr (.inr (.inl rfl))

theorem Reading.widened (reading : Reading v before seg after) : Derives widest (.value v) seg :=
  reading.derived.change (fun c _ => loose_space c) fun x inside => loose_widest (reading.derived.allows x inside)

/-- Two ways to read one text agree. -/
theorem Reading.agrees (reading : Reading v before seg after) (container : v'.Container)
    (derived : Derives rfc7159 (.value v') seg') (spaces : rfc7159.Spaces before')
    (same : before ++ (seg ++ rest) = before' ++ (seg' ++ rest')) :
    before = before' ∧ v = v' ∧ seg = seg' ∧ rest = rest' := by
  apply container_unique reading.container container reading.widened derived.widened _ _ same
  · exact fun c inside => (reading.before c inside).2
  · exact fun c inside => (spaces_before (fun _ space => space) spaces c inside).2

theorem Quiet.accepts (quiet : Quiet handlers) (junk : JsonCtx U A) (cb : Option (JsonCb U A)) (udata : U)
    (reading : Reading v before seg after) :
    Accepts handlers (jsonInit junk cb udata).1 (before ++ (seg ++ after)) := by
  rcases @jsonParse_reading U A handlers _ (jsonInit junk cb udata).1 seg v before after quiet.follows reading
    rfl rfl rfl rfl trivial with ⟨ctx', run, consistent, -⟩
  exact ⟨ctx', run, consistent⟩

/-! Texts to try the results on. -/

def blank {A : Type} (world : A) : JsonCtx Unit A where
  input := []
  st := .start
  flags := { needUnescape := false, float := false, scientific := false }
  ty := .undef
  v := .i 0
  idx := 0
  nest := 0
  stack := []
  world := world

/-- A client without callbacks. -/
def mute : JsonHandlers Unit Unit := (jsonInit (blank ()) none ()).2

theorem mute_quiet : Quiet mute := by
  intro k cb set
  cases k <;> cases set

def sample : Json := .object [([107], .array [.number [55]] false)]

/-- The text is `{"k": [7]}`. -/
theorem sample_derives {L : Lexicon} (space : L.space 32) (key : L.allows (.string [107]))
    (seven : L.allows (.number [55])) :
    Derives L (.value sample) [123, 34, 107, 34, 58, 32, 91, 55, 93, 125] := by
  have none : L.Spaces [] := L.spaces_nil
  have blank : L.Spaces [32] := List.forall_mem_singleton.mpr space
  have items : Derives L (.items [.number [55]] false) ([55] ++ ([] ++ [93])) := .lastItem (.number seven) none
  have array : Derives L (.value (.array [.number [55]] false)) (91 :: ([] ++ ([55] ++ ([] ++ [93])))) :=
    .array none items
  have members := Derives.lastMember key none blank array none
  exact .object none members

/-- The same with a newline behind it. -/
theorem sample_document {L : Lexicon} (space : L.space 32) (newline : L.space 10) (key : L.allows (.string [107]))
    (seven : L.allows (.number [55])) : Document L sample [123, 34, 107, 34, 58, 32, 91, 55, 93, 125, 10] := by
  have none : L.Spaces [] := L.spaces_nil
  exact ⟨[], _, [10], none, trivial, sample_derives space key seven, List.forall_mem_singleton.mpr newline, rfl⟩

theorem chars_k : Chars [107] := .unescaped (by decide) (by decide) (by decide) .nil

theorem number_seven : Number [55] :=
  ⟨[], [55], [], [], rfl, .inl rfl, .inr ⟨⟨by simp, by simp [IsDigit]⟩, by decide⟩, .inl rfl, .inl rfl⟩

/-- A document without a plus, in spaces, tabs and newlines, is parsed, and the calls are
those of the document. -/
theorem jsonParse_document (quiet : Quiet handlers) (junk : JsonCtx U (A × List Event))
    (cb : Option (JsonCb U (A × List Event))) (udata : U) (document : Document plain v text) :
    ∃ ctx', jsonParse handlers.watched text (jsonInit junk cb udata).1 = .ok ctx' ∧ jsonCtxConsistent ctx' = 0 ∧
      ctx'.world.2 = junk.world.2 ++ documentEvents v := by
  rcases document with ⟨before, seg, after, spaces, container, derived, spaces', rfl⟩
  have loosely : Derives loose (.value v) seg :=
    derived.change (fun _ _ space => space) fun x inside => plain_loose (derived.allows x inside)
  have reading : Reading v before seg after := reading_of_spaces loose_space container loosely spaces spaces'
  exact jsonParse_reading (quiet.watched junk.world.2) reading rfl rfl rfl rfl (List.append_nil _).symm

theorem jsonParse_sample :
    ∃ ctx', jsonParse mute.watched [123, 34, 107, 34, 58, 32, 91, 55, 93, 125, 10]
        (jsonInit (blank ((), [])) none ()).1 = .ok ctx' ∧
      jsonCtxConsistent ctx' = 0 ∧
      ctx'.world.2 = [
        ⟨.ostart, .object, 0, .none⟩,
        ⟨.value, .object, 0, .none⟩,
        ⟨.key, .string, 1, .text [107]⟩,
        ⟨.astart, .array, 1, .none⟩,
        ⟨.value, .array, 1, .none⟩,
        ⟨.item, .int, 2, .integer 7⟩,
        ⟨.astop, .array, 1, .none⟩,
        ⟨.ostop, .object, 0, .none⟩] :=
  jsonParse_document mute_quiet (blank ((), [])) none ()
    (sample_document (.inl rfl) (.inr (.inr rfl)) chars_k ⟨number_seven, by decide⟩)

/-- Truncation is noticed. -/
theorem jsonParse_cut (handlers : JsonHandlers U A) (junk : JsonCtx U A) (cb : Option (JsonCb U A)) (udata : U)
    (document : Document rfc7159 v (text ++ cut)) (visible : ∃ c ∈ cut, ¬ rfc7159.space c) :
    ¬ Accepts handlers (jsonInit junk cb udata).1 text := by
  rintro ⟨ctx', run, consistent⟩
  rcases document with ⟨before, seg, after, spaces, container, derived, spaces', whole⟩
  rcases jsonParse_sound rfl rfl rfl run consistent with ⟨v', before', seg', after', rfl, reading⟩
  rw [List.append_assoc, List.append_assoc] at whole
  rcases reading.agrees container derived spaces whole with ⟨-, -, -, rfl⟩
  rcases visible with ⟨c, inside, other⟩
  exact other (spaces' c (List.mem_append_right _ inside))

theorem jsonParse_cut_sample :
    ¬ Accepts mute (jsonInit (blank ()) none ()).1 [123, 34, 107, 34, 58, 32, 91, 55, 93] :=
  jsonParse_cut mute (blank ()) none ()
    (sample_document (.inl rfl) (.inr (.inr (.inl rfl))) chars_k number_seven)
    ⟨125, List.mem_cons_self, by simp [rfc7159]⟩

/-- A document is accepted exactly if it has no carriage return between its first and its
last bracket, and no plus in a number. -/
theorem accepts_document (quiet : Quiet handlers) (junk : JsonCtx U A) (cb : Option (JsonCb U A)) (udata : U)
    (container : v.Container) (derived : Derives rfc7159 (.value v) seg) (spaces : rfc7159.Spaces before)
    (spaces' : rfc7159.Spaces after) :
    Accepts handlers (jsonInit junk cb udata).1 (before ++ (seg ++ after)) ↔
      13 ∉ seg ∧ ∀ chars, .number chars ∈ v.lexemes → 43 ∉ chars := by
  constructor
  · rintro ⟨ctx', run, consistent⟩
    rcases jsonParse_sound rfl rfl rfl run consistent with ⟨v', before', seg', after', same, reading⟩
    rcases reading.agrees container derived spaces same.symm with ⟨-, rfl, rfl, -⟩
    constructor
    · have space : ¬ loose.space 13 := by
        rintro (wrong | wrong | wrong) <;> cases wrong
      apply reading.derived.free space (by decide)
      exact fun x inside wrong => absurd (rfc7159_printable (derived.allows x inside) 13 wrong) (by decide)
    · exact fun chars inside => no_plus_of_loose (reading.derived.allows _ inside)
  · rintro ⟨feed, plus⟩
    have loosely : Derives loose (.value v) seg := by
      apply derived.change
      · rintro c inside (rfl | rfl | rfl | rfl)
        · exact .inl rfl
        · exact .inr (.inl rfl)
        · exact .inr (.inr rfl)
        · exact absurd inside feed
      · exact fun x inside => rfc7159_loose (derived.allows x inside) fun chars number => plus chars (number ▸ inside)
    exact quiet.accepts junk cb udata (reading_of_spaces (fun _ space => space) container loosely spaces spaces')

theorem accepts_sample : Accepts mute (jsonInit (blank ()) none ()).1
    ([] ++ ([123, 34, 107, 34, 58, 32, 91, 55, 93, 125] ++ [10])) := by
  have none : rfc7159.Spaces [] := rfc7159.spaces_nil
  have newline : rfc7159.Spaces [10] := List.forall_mem_singleton.mpr (.inr (.inr (.inl rfl)))
  have derived : Derives rfc7159 (.value sample) _ := sample_derives (.inl rfl) chars_k number_seven
  have container : sample.Container := trivial
  apply (accepts_document mute_quiet (blank ()) Option.none () container derived none newline).mpr
  constructor
  · decide
  · intro chars inside
    simp [sample, Json.lexemes, memberLexemes, itemLexemes] at inside
    simp [inside]

/-- Both a carriage return in an array and a plus in an exponent. -/
theorem rejected_document :
    (∃ v, Document rfc7159 v [91, 13, 93]) ∧ ¬ Accepts mute (jsonInit (blank ()) none ()).1 [91, 13, 93] ∧
    (∃ v, Document rfc7159 v [91, 49, 101, 43, 53, 93]) ∧
      ¬ Accepts mute (jsonInit (blank ()) none ()).1 [91, 49, 101, 43, 53, 93] := by
  have none : rfc7159.Spaces [] := rfc7159.spaces_nil
  have feed : rfc7159.Spaces [13] := List.forall_mem_singleton.mpr (.inr (.inr (.inr rfl)))
  have five : Exp [101, 43, 53] := ⟨101, [43], [53], rfl, .inl rfl, .inr (.inl rfl), by simp, by simp [IsDigit]⟩
  have number : Number [49, 101, 43, 53] :=
    ⟨[], [49], [], [101, 43, 53], rfl, .inl rfl, .inr ⟨⟨by simp, by simp [IsDigit]⟩, by decide⟩, .inl rfl, .inr five⟩
  have items : Derives rfc7159 (.items [.number [49, 101, 43, 53]] false) ([49, 101, 43, 53] ++ ([] ++ [93])) :=
    .lastItem (.number number) none
  refine ⟨⟨.array [] false, [], _, [], none, trivial, .emptyArray feed, none, rfl⟩, ?_, ?_, ?_⟩
  · rintro ⟨ctx', run, -⟩
    cases run
  · exact ⟨.array [.number [49, 101, 43, 53]] false, [], _, [], none, trivial, .array none items, none, rfl⟩
  · rintro ⟨ctx', run, -⟩
    cases run

/-- What a text has that is read as a document. -/
structure Neat (v : Json) (before after : List UInt8) : Prop where
  before : rfc7159.Spaces before
  after : rfc7159.Spaces after
  strings : ∀ body, .string body ∈ v.lexemes → Chars body
  numbers : ∀ chars, .number chars ∈ v.lexemes → Number chars
  tokens : ∀ chars, .token chars ∈ v.lexemes → Literal chars
  commas : .comma ∉ v.lexemes

theorem Neat.allows (neat : Neat v before after) : ∀ x ∈ v.lexemes, rfc7159.allows x := by
  intro x inside
  cases x with
  | string body => exact neat.strings body inside
  | number chars => exact neat.numbers chars inside
  | token chars => exact neat.tokens chars inside
  | comma => exact neat.commas inside

/-- What is accepted is a document exactly if the text, read as loosely as the code reads it,
is neat. -/
theorem accepted_document (quiet : Quiet handlers) (junk : JsonCtx U A) (cb : Option (JsonCb U A)) (udata : U)
    (text : List UInt8) :
    (Accepts handlers (jsonInit junk cb udata).1 text → ∃ v, Document rfc7159 v text) ↔
      ∀ v before seg after, text = before ++ (seg ++ after) → Reading v before seg after → Neat v before after := by
  constructor
  · rintro sound v before seg after rfl reading
    rcases sound (quiet.accepts junk cb udata reading) with
      ⟨v', before', seg', after', spaces, container, derived, spaces', same⟩
    rcases reading.agrees container derived spaces same with ⟨rfl, rfl, rfl, rfl⟩
    have allowed := derived.allows
    exact ⟨spaces, spaces', fun _ => allowed _, fun _ => allowed _, fun _ => allowed _, allowed _⟩
  · rintro neat ⟨ctx', run, consistent⟩
    rcases jsonParse_sound rfl rfl rfl run consistent with ⟨v, before, seg, after, rfl, reading⟩
    have tidy := neat v before seg after rfl reading
    have derived : Derives rfc7159 (.value v) seg := reading.derived.change (fun c _ => loose_space c) tidy.allows
    exact ⟨v, before, seg, after, tidy.before, reading.container, derived, tidy.after, rfl⟩

theorem accepted_sample :
    (Accepts mute (jsonInit (blank ()) none ()).1 [91, 93] → ∃ v, Document rfc7159 v [91, 93]) ↔
      ∀ v before seg after, [91, 93] = before ++ (seg ++ after) → Reading v before seg after → Neat v before after :=
  accepted_document mute_quiet (blank ()) none () [91, 93]

/-- A comma behind the last item. -/
theorem accepted_comma :
    Accepts mute (jsonInit (blank ()) none ()).1 [91, 49, 44, 93] ∧ ¬ ∃ v, Document rfc7159 v [91, 49, 44, 93] := by
  constructor
  · exact ⟨_, rfl, rfl⟩
  · rintro ⟨v, before, seg, after, spaces, container, derived, spaces', same⟩
    have one : loose.allows (.number [49]) := ⟨49, [], rfl, by decide, by simp⟩
    have items : Derives loose (.items [.number [49]] true) ([49] ++ ([] ++ 44 :: ([] ++ [93]))) :=
      .comma trivial (.number one) loose.spaces_nil loose.spaces_nil
    have reading : Reading (.array [.number [49]] true) [] [91, 49, 44, 93] [] :=
      ⟨by simp, trivial, .array loose.spaces_nil items, by simp⟩
    have same' : [] ++ ([91, 49, 44, 93] ++ []) = before ++ (seg ++ after) := same
    rcases reading.agrees container derived spaces same' with ⟨-, rfl, -⟩
    exact derived.allows .comma (by simp [Phrase.lexemes, Json.lexemes])

end MnCommon.JsonParser
