import MnCommon.JsonParser.Fidelity
import MnCommon.JsonParser.Record

/-! The nesting of the calls. -/

namespace MnCommon.JsonParser

variable {U A : Type} {handlers : JsonHandlers U A} {r r' : Reader} {opened : List Container}

/-- The containers that are open after some calls, with the innermost one first. A stop that
is not that of the innermost one fails. -/
def opensAfter : List JsonCallback → List Container → Option (List Container)
  | [], opened => some opened
  | .ostart :: ks, opened => opensAfter ks (.object :: opened)
  | .astart :: ks, opened => opensAfter ks (.array :: opened)
  | .ostop :: ks, .object :: opened => opensAfter ks opened
  | .astop :: ks, .array :: opened => opensAfter ks opened
  | .ostop :: _, _ | .astop :: _, _ => none
  | _ :: ks, opened => opensAfter ks opened

def WellNested (calls : List JsonCallback) : Prop := (opensAfter calls []).isSome

instance (calls : List JsonCallback) : Decidable (WellNested calls) := inferInstanceAs (Decidable (_ = true))

namespace Reader

/-- Reading on, one reader comes to another. -/
inductive Leads : Reader → Reader → Prop where
  | here (r : Reader) : Leads r r
  | on {r r' : Reader} : r.look.Goes → Leads r.after r' → Leads r r'

/-- The loop over one container takes a bracket for its own where another is open. -/
structure Stray (r : Reader) : Prop where
  leaves : r.look = .leave
  other : r.opened.head? ≠ r.loops.head?

end Reader

/-- A closing bracket of the text does not meet the loop over its container, because a NUL has
ended that loop. -/
def Strays (text : List UInt8) : Prop := ∃ r, (Reader.start text).Leads r ∧ r.Stray

theorem opensAfter_append (ks ks' : List JsonCallback) (opened : List Container) :
    opensAfter (ks ++ ks') opened = (opensAfter ks opened).bind (opensAfter ks') := by
  fun_induction opensAfter ks opened <;> simp_all [opensAfter]

theorem sites_callbacks (r : Reader) :
    r.sites.map (·.notice.callback) = (r.look.notices r.loops r.st).map (·.callback) := by
  rw [Reader.sites, List.map_map]
  rfl

/-- The calls of one turn keep what is open up to date. -/
theorem opens_sites (straight : ¬ r.Stray) (held : r.loops.length ≤ r.opened.length) :
    opensAfter (r.sites.map (·.notice.callback)) r.opened = some r.after.opened := by
  have passes := r.passes
  rw [sites_callbacks]
  cases looks : r.look with
  | string | number | token =>
      simp only [Look.notices, Reader.after, looks]
      rcases r.loops with _ | ⟨_ | _, outer⟩ <;> rfl
  | enter k =>
      simp only [Reader.after, looks]
      cases k <;> rcases r.loops with _ | ⟨_ | _, outer⟩ <;> rfl
  | leave =>
      rw [looks] at passes
      rcases passes with ⟨k, outer, cs, loops, -⟩
      have same : r.opened.head? = r.loops.head? := by
        by_contra other
        exact straight ⟨looks, other⟩
      simp only [Reader.after, looks, loops]
      rw [loops] at same held
      cases opened : r.opened with
      | nil =>
          rw [opened] at same
          cases same
      | cons k' opened' =>
          rw [opened] at same
          cases same
          cases k <;> rfl
  | _ =>
      simp only [Reader.after, looks]
      rfl

theorem opens_stray (stray : r.Stray) (held : r.loops.length ≤ r.opened.length) :
    opensAfter (r.sites.map (·.notice.callback)) r.opened = none := by
  have passes := r.passes
  have other := stray.other
  rw [stray.leaves] at passes
  rcases passes with ⟨k, outer, cs, loops, -⟩
  rw [sites_callbacks, stray.leaves, loops]
  rw [loops] at other held
  cases opened : r.opened with
  | nil =>
      rw [opened] at held
      exact absurd held (Nat.not_succ_le_zero _)
  | cons k' opened' =>
      rw [opened] at other
      cases k <;> cases k' <;>
        first
          | exact absurd rfl other
          | rfl

theorem leads_iff : r.Leads r' ↔ r' = r ∨ (r.look.Goes ∧ r.after.Leads r') := by
  constructor
  · intro leads
    cases leads with
    | here => exact .inl rfl
    | on goes more => exact .inr ⟨goes, more⟩
  · rintro (rfl | ⟨goes, more⟩)
    · exact .here r'
    · exact .on goes more

/-- The calls are nested as long as the reader does not go astray. -/
theorem calls_nested (fuel : Nat) (r : Reader) (held : r.loops.length ≤ r.opened.length)
    (enough : r.rest.length < fuel) :
    (opensAfter ((r.calls fuel).map (·.notice.callback)) r.opened).isSome ↔ ¬ ∃ r', r.Leads r' ∧ r'.Stray := by
  induction fuel generalizing r with
  | zero => exact absurd enough (Nat.not_lt_zero _)
  | succ fuel ih =>
      rw [Reader.calls]
      by_cases goes : r.look.Goes
      · rw [if_pos goes, List.map_append, opensAfter_append]
        have shorter := after_shorter goes
        have later := ih r.after (held_after held) (by omega)
        by_cases stray : r.Stray
        · rw [opens_stray stray held]
          constructor
          · exact fun wrong => absurd wrong Bool.false_ne_true
          · exact fun straight => absurd ⟨r, .here r, stray⟩ straight
        · rw [opens_sites stray held]
          refine later.trans (not_congr ⟨?_, ?_⟩)
          · rintro ⟨r', leads, wrong⟩
            exact ⟨r', .on goes leads, wrong⟩
          · rintro ⟨r', leads, wrong⟩
            rcases leads_iff.mp leads with rfl | ⟨-, more⟩
            · exact absurd wrong stray
            · exact ⟨r', more, wrong⟩
      · rw [if_neg goes]
        constructor
        · rintro - ⟨r', leads, wrong⟩
          rcases leads_iff.mp leads with rfl | ⟨goes', -⟩
          · rw [wrong.leaves] at goes
            exact goes trivial
          · exact goes goes'
        · exact fun _ => rfl

theorem callSites_nested (text : List UInt8) :
    WellNested ((callSites text).map (·.notice.callback)) ↔ ¬ Strays text :=
  calls_nested (text.length + 1) (Reader.start text) (Nat.le_refl _) (Nat.lt_succ_self _)

/-- Without a NUL, all the loops are over open containers. -/
theorem leads_of_no_nul {r r' : Reader} (leads : r.Leads r') (same : r.loops = r.opened) (nonzero : 0 ∉ r.rest) :
    r'.loops = r'.opened := by
  induction leads with
  | here => exact same
  | @on r _ goes _ ih =>
      apply ih
      · have passes := r.passes
        cases looks : r.look with
        | lapse =>
            rw [looks] at passes
            rcases passes with ⟨k, outer, cs, -, rest⟩
            rw [rest] at nonzero
            exact absurd List.mem_cons_self nonzero
        | _ =>
            simp only [Reader.after, looks, Look.loops, Look.opened, same]
      · exact fun wrong => nonzero (List.mem_of_mem_drop wrong)

theorem straight_of_no_nul {text : List UInt8} (nonzero : 0 ∉ text) : ¬ Strays text := by
  rintro ⟨r, leads, stray⟩
  exact stray.other (by rw [leads_of_no_nul leads rfl nonzero])

/-- The stops of a parse of which the callbacks return 0 are those of the containers that are
open, exactly if the text does not go astray. -/
theorem jsonParse_nested (passing : Passing handlers) (junk : JsonCtx U A) (cb : Option (JsonCb U A)) (udata : U)
    (text : List UInt8) :
    WellNested ((callsMade handlers text (jsonInit junk cb udata).1).map (·.callback)) ↔ ¬ Strays text := by
  rcases jsonParse_heard handlers text (jsonInit junk cb udata).1 rfl rfl rfl with ⟨stop, heard, -⟩
  cases heard.passing passing
  rw [callbacks_of heard.complete]
  exact callSites_nested text

/-- A client that lets everything pass. -/
def willing : JsonHandlers Unit Unit := (jsonInit (blank ()) (some fun ctx _ => (0, ctx.stack, ctx.world)) ()).2

theorem willing_passing : Passing willing := by
  intro k cb set ctx udata
  cases k <;> cases set <;> rfl

theorem nested_sample :
    WellNested ((callsMade willing [91, 123, 125, 93] (jsonInit (blank ()) none ()).1).map (·.callback)) ↔
      ¬ Strays [91, 123, 125, 93] :=
  jsonParse_nested willing_passing (blank ()) none () [91, 123, 125, 93]

/-- The text is `[{"a":1`, a NUL and `]`. -/
theorem nested_astray :
    Passing willing ∧ (callsMade willing [91, 123, 34, 97, 34, 58, 49, 0, 93] (jsonInit (blank ()) none ()).1).map
      (·.callback) = [.astart, .item, .ostart, .item, .key, .value, .astop] ∧
    ¬ WellNested [.astart, .item, .ostart, .item, .key, .value, .astop] :=
  ⟨willing_passing, by decide +kernel, by decide⟩

end MnCommon.JsonParser
