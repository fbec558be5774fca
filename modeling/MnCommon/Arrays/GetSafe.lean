import MnCommon.Arrays.Lifecycle

/-! Access to an element that may not be there yet. -/

namespace MnCommon.Arrays

open Memory (Fault Along along_iff_within of_bind_ok of_map_ok)
open Memory.Event (setups setups_append setups_inits mem_of_setups)

/-- `ARRAY_ENSURE_BODY` without the last step of `array_ensure_len`: the length stays. -/
def arrayEnsureDatasz (junk : Nat → UInt8) (newelnum : Nat) (flags : UInt32) (ar : Mnarray) :
    Except Fault (List Event × Mnarray) :=
  (arrayEnsureLen junk newelnum flags ar).map fun rest => (rest.1, { rest.2 with elnum := ar.elnum })

/-- Room for `count` elements; where there is none, then for twice as many. -/
def makeRoom (junk : Nat → UInt8) (count : Nat) (ar : Mnarray) : Except Fault (List Event × Mnarray) :=
  let datasz := ar.elsz * count % 2 ^ 64
  if ar.datasz < datasz then
    arrayEnsureDatasz junk (count * 2 % 2 ^ 32) arrayFlagSave ar
  else
    .ok ([], ar)

/-- `idx` is an `unsigned`, and so is `idx + 1`; the products are of type `size_t`. The answer
is the offset of the element. -/
def arrayGetSafe (junk : Nat → UInt8) (idx : Nat) (ar : Mnarray) : Except Fault (Nat × List Event × Mnarray) :=
  if idx < ar.elnum then
    .ok (ar.elsz * idx, [], ar)
  else
    let count := (idx + 1) % 2 ^ 32
    makeRoom junk count ar >>= fun (events, ar) =>
      if ar.elsz * idx % 2 ^ 64 < ar.datasz then
        .ok (ar.elsz * idx % 2 ^ 64, events, { ar with elnum := count })
      else
        .error .assertion

inductive AccessOp where
  | base (op : ArrayOp)
  | getSafe (idx : Nat)

def accessStep (junk : Nat → UInt8) : AccessOp → Client → Except Fault (Answer × Client)
  | .base op, c => step junk op c
  | .getSafe idx, c => (arrayGetSafe junk idx c.array).map fun rest => (.item rest.1, c.after rest.2.1 rest.2.2)

/-- An `unsigned` index into an array with an `init` callback. -/
def Permitted : AccessOp → Client → Prop
  | .base op, c => Allowed op c
  | .getSafe idx, c => c.live = true ∧ c.array.init.isSome = true ∧ idx < 2 ^ 32

/-- After `array_get_safe` each element has been set up once since it was last torn down. -/
def Initialises (junk : Nat → UInt8) (op : AccessOp) (c : Client) : Prop :=
  match op with
  | .base _ => True
  | .getSafe idx => ∃ offset next, accessStep junk (.getSafe idx) c = .ok (.item offset, next) ∧
      ∀ slot < next.array.elnum, setups slot next.log 0 = 1

/-- Elements up to `idx` that lie in the capacity have been set up; those that have to be added have
not, and twice as many fit into 32 bits and into a `size_t`. -/
def Ready (op : AccessOp) (c : Client) : Prop :=
  match op with
  | .base _ => True
  | .getSafe idx =>
      if idx < c.array.elnum then
        ∀ slot < c.array.elnum, setups slot c.log 0 = 1
      else if idx + 1 = 2 ^ 32 then
        c.array.elsz * idx % 2 ^ 64 < c.array.datasz
      else if c.array.elsz * (idx + 1) ≤ c.array.datasz then
        ∀ slot ≤ idx, setups slot c.log 0 = 1
      else
        idx + 1 < 2 ^ 31 ∧ c.array.elsz * (2 * (idx + 1)) < 2 ^ 64 ∧
          ∀ slot ≤ idx, setups slot c.log 0 = if slot < c.array.elnum then 1 else 0

/-- A power of two up to a limit, or room for a number of elements. -/
def Sized (ar : Mnarray) : Prop := (∃ k ≤ 20, ar.datasz = 2 ^ k) ∨ ar.elsz ∣ ar.datasz

/-- All elements that have ever been set up were in memory. -/
structure Tidy (c : Client) : Prop where
  sound : c.live = true → Sound c.array
  sized : c.live = true → Sized c.array
  bounded : c.live = true → ∀ slot, .init slot ∈ c.log → (slot + 1) * c.array.elsz < 2 ^ 64

variable {junk : Nat → UInt8} {c : Client} {ar next : Mnarray} {events : List Event} {elsz n m v idx : Nat}

theorem shiftUp_pow (k v : Nat) (low : v ≤ 2 ^ 20) (small : k ≤ 20) :
    ∃ j ≤ 20, shiftUp (2 ^ k) v (Nat.two_pow_pos k) = 2 ^ j := by
  rw [shiftUp]
  by_cases less : 2 ^ k < v
  · have shorter : k < 20 := (Nat.pow_lt_pow_iff_right (by decide)).mp (less.trans_le low)
    rw [if_pos less]
    exact shiftUp_pow (k + 1) v low shorter
  · exact ⟨k, small, if_neg less⟩
termination_by 20 - k

theorem dvd_shiftUp (m v : Nat) (positive : 0 < m) (multiple : elsz ∣ m) : elsz ∣ shiftUp m v positive := by
  rw [shiftUp]
  split
  · exact dvd_shiftUp (m * 2) v _ (multiple.mul_right 2)
  · exact multiple
termination_by v - m

theorem shiftUp_le (m v : Nat) (positive : 0 < m) (low : m ≤ 2 * v) : shiftUp m v positive ≤ 2 * v := by
  rw [shiftUp]
  split
  · exact shiftUp_le (m * 2) v _ (by omega)
  · exact low
termination_by v - m

/-- A size is exact, or not much larger than the limit up to which sizes are doubled. -/
theorem ensureSetDatasz_le (m v : Nat) (some : 0 < v) (less : m < v) :
    ensureSetDatasz m v = v ∨ ensureSetDatasz m v ≤ 2 ^ 21 := by
  rw [ensureSetDatasz]
  split
  · exact .inl rfl
  · right
    have limit : smallDatasz = 2 ^ 20 := by decide
    split
    · exact (shiftUp_le _ _ _ (by omega)).trans (by omega)
    · exact (shiftUp_le _ _ _ (by omega)).trans (by omega)

theorem ensureSetDatasz_sized (multiple : elsz ∣ v) (sized : (∃ k ≤ 20, m = 2 ^ k) ∨ elsz ∣ m) :
    (∃ k ≤ 20, ensureSetDatasz m v = 2 ^ k) ∨ elsz ∣ ensureSetDatasz m v := by
  have limit : smallDatasz = 2 ^ 20 := by decide
  rw [ensureSetDatasz]
  split
  · exact .inr multiple
  · split
    · rcases sized with ⟨k, small, rfl⟩ | multiple
      · exact .inl (shiftUp_pow k v (by omega) small)
      · exact .inr (dvd_shiftUp m v _ multiple)
    · exact .inl (shiftUp_pow 0 v (by omega) (Nat.zero_le 20))

theorem grow_sized (junk : Nat → UInt8) (sized : Sized ar) (whole : ar.elsz * n < 2 ^ 64) :
    Sized (grow junk n ar) := by
  rw [grow, Nat.mod_eq_of_lt whole]
  by_cases less : ar.datasz < ar.elsz * n
  · simp only [if_pos less]
    exact ensureSetDatasz_sized (Nat.dvd_mul_right ..) sized
  · simp only [if_neg less]
    exact sized

theorem grow_elsz (junk : Nat → UInt8) (n : Nat) (ar : Mnarray) : (grow junk n ar).elsz = ar.elsz := by
  simp only [grow]
  split
  · rfl
  · rfl

theorem release_sized (ar : Mnarray) : Sized (release ar) := .inr (Nat.dvd_zero _)

theorem visit_data {kind : Nat → Event} {cb : Option Callback} {heed : Bool} {slots : List Nat} {res : Int}
    (run : visit kind cb heed slots ar = .ok (res, events, next)) :
    ∃ data, next = { ar with data := data } := by
  cases cb with
  | none =>
      cases run
      exact ⟨ar.data, rfl⟩
  | some f =>
      simp only [visit] at run
      cases called : calls ar.elsz f heed slots ar.data with
      | error fault =>
          rw [called] at run
          cases run
      | ok rest =>
          rw [called] at run
          cases run
          exact ⟨rest.2.2, rfl⟩

theorem replaceAll_sized (sized : Sized ar) (whole : ar.elsz * n < 2 ^ 64)
    (run : replaceAll junk n ar = .ok (events, next)) : Sized next ∧ next.elsz = ar.elsz := by
  rcases of_bind_ok run with ⟨⟨res, finis, mid⟩, first, later⟩
  rcases visit_data first with ⟨data, rfl⟩
  rcases of_bind_ok later with ⟨⟨res', inits, last⟩, second, finish⟩
  rcases visit_data second with ⟨data', rfl⟩
  cases finish
  by_cases some : 0 < n
  · simp only [if_pos some]
    have moved : Sized { ar with data := data } := sized
    exact ⟨grow_sized junk moved whole, grow_elsz junk n _⟩
  · simp only [if_neg some]
    exact ⟨release_sized _, rfl⟩

theorem extend_sized (sized : Sized ar) (whole : ar.elsz * n < 2 ^ 64)
    (run : extend junk n ar = .ok (events, next)) : Sized next ∧ next.elsz = ar.elsz := by
  rcases of_bind_ok run with ⟨⟨res, inits, last⟩, first, finish⟩
  rcases visit_data first with ⟨data, rfl⟩
  cases finish
  exact ⟨grow_sized junk sized whole, grow_elsz junk n ar⟩

theorem shrink_sized (sized : Sized ar) (run : shrink n ar = .ok (events, next)) :
    Sized next ∧ next.elsz = ar.elsz := by
  rcases of_bind_ok run with ⟨⟨res, finis, mid⟩, first, finish⟩
  rcases visit_data first with ⟨data, rfl⟩
  cases finish
  by_cases some : 0 < n
  · rw [if_pos some]
    exact ⟨sized, rfl⟩
  · rw [if_neg some]
    exact ⟨release_sized _, rfl⟩

theorem arrayEnsureLen_sized {flags : UInt32} (sized : Sized ar)
    (whole : (saves flags = true → ar.elnum < n) → ar.elsz * n < 2 ^ 64)
    (run : arrayEnsureLen junk n flags ar = .ok (events, next)) : Sized next ∧ next.elsz = ar.elsz := by
  rw [arrayEnsureLen] at run
  by_cases flag : flags &&& arrayFlagSave = 0
  · rw [if_pos flag] at run
    have dropped : ¬ saves flags = true := fun keep => of_decide_eq_true keep flag
    exact replaceAll_sized sized (whole fun keep => absurd keep dropped) run
  · rw [if_neg flag] at run
    by_cases more : ar.elnum < n
    · rw [if_pos more] at run
      exact extend_sized sized (whole fun _ => more) run
    · rw [if_neg more] at run
      by_cases fewer : n < ar.elnum
      · rw [if_pos fewer] at run
        exact shrink_sized sized run
      · rw [if_neg fewer] at run
        cases run
        exact ⟨sized, rfl⟩

/-- No operation but `array_init` changes the size of an element. -/
theorem step_sized {op : ArrayOp} {answer : Answer} {next : Client} (other : ∀ elsz n i f, op ≠ .init elsz n i f)
    (sized : Sized c.array) (allowed : Allowed op c) (stepped : step junk op c = .ok (answer, next)) :
    Sized next.array ∧ next.array.elsz = c.array.elsz := by
  cases op with
  | init elsz n i f => exact absurd rfl (other elsz n i f)
  | ensureLen n flags =>
      rcases of_map_ok stepped with ⟨rest, run, same⟩
      cases same
      exact arrayEnsureLen_sized sized (fun _ => allowed.2.2) run
  | incr =>
      rcases of_map_ok stepped with ⟨rest, run, same⟩
      cases same
      rcases of_map_ok run with ⟨⟨events, ar⟩, run', rfl⟩
      exact arrayEnsureLen_sized sized (fun _ => allowed.2.2) run'
  | decr =>
      rcases of_map_ok stepped with ⟨rest, run, same⟩
      cases same
      rw [arrayDecr] at run
      by_cases empty : c.array.elnum = 0
      · rw [if_pos empty] at run
        cases run
        exact ⟨sized, rfl⟩
      · rw [if_neg empty] at run
        rcases of_map_ok run with ⟨⟨events, ar⟩, run', rfl⟩
        have whole : (saves arrayFlagSave = true → c.array.elnum < c.array.elnum - 1) →
            c.array.elsz * (c.array.elnum - 1) < 2 ^ 64 :=
          fun grows => absurd (grows saves_save) (Nat.not_lt.mpr (Nat.sub_le _ _))
        exact arrayEnsureLen_sized sized whole run'
  | decrFast =>
      rcases of_map_ok stepped with ⟨rest, run, same⟩
      cases same
      rw [arrayDecrFast] at run
      by_cases empty : c.array.elnum = 0
      · rw [if_pos empty] at run
        cases run
        exact ⟨sized, rfl⟩
      · rw [if_neg empty] at run
        rcases of_map_ok run with ⟨⟨res, finis, ar⟩, run', rfl⟩
        rcases visit_data run' with ⟨data, rfl⟩
        exact ⟨sized, rfl⟩
  | clear =>
      rcases of_map_ok stepped with ⟨rest, run, same⟩
      cases same
      rcases of_map_ok run with ⟨⟨res, finis, ar⟩, run', rfl⟩
      rcases visit_data run' with ⟨data, rfl⟩
      simp only [Client.after]
      split
      · exact ⟨sized, rfl⟩
      · exact ⟨sized, rfl⟩
  | fini =>
      rcases of_map_ok stepped with ⟨rest, run, same⟩
      cases same
      rw [arrayFini] at run
      cases memory : c.array.data with
      | none =>
          simp only [memory] at run
          cases run
          exact ⟨sized, rfl⟩
      | some block =>
          simp only [memory] at run
          rcases of_map_ok run with ⟨⟨res, finis, ar⟩, run', rfl⟩
          rcases visit_data run' with ⟨data, rfl⟩
          exact ⟨sized, rfl⟩

theorem arrayInit_sized {init fini : Option Callback} {res : Int} (whole : elsz * n < 2 ^ 64)
    (run : arrayInit junk elsz n init fini = .ok (res, events, ar)) : Sized ar ∧ ar.elsz = elsz := by
  have limit : smallDatasz = 2 ^ 20 := by decide
  have sized : ∀ data, Sized ⟨elsz, n, data, if smallDatasz ≤ elsz * n then elsz * n else
      if 0 < elsz * n then shiftUp 1 (elsz * n) Nat.one_pos else 0, init, fini⟩ := by
    intro data
    rw [Sized]
    simp only
    split
    · exact .inr (Nat.dvd_mul_right ..)
    · split
      · exact .inl (shiftUp_pow 0 _ (by omega) (Nat.zero_le 20))
      · exact .inr (Nat.dvd_zero _)
  rw [arrayInit, Nat.mod_eq_of_lt whole] at run
  split at run
  · cases run
  · dsimp only at run
    split at run
    · rcases of_map_ok run with ⟨⟨code, calls, after⟩, visited, same⟩
      rcases visit_data visited with ⟨data, rfl⟩
      cases same
      exact ⟨sized data, rfl⟩
    · cases run
      exact ⟨sized none, rfl⟩

theorem mem_made {cb : Option Callback} {slots : List Nat} {slot : Nat} (inside : .init slot ∈ made .init cb slots) :
    slot ∈ slots := by
  rw [made] at inside
  split at inside
  · rcases List.mem_map.mp inside with ⟨k, there, same⟩
    cases same
    exact there
  · cases inside

theorem not_mem_made {cb : Option Callback} {slots : List Nat} {slot : Nat} : .init slot ∉ made .fini cb slots := by
  rw [made]
  split
  · intro inside
    rcases List.mem_map.mp inside with ⟨k, -, same⟩
    cases same
  · exact List.not_mem_nil

/-- Elements enter an array only where there is room for them. -/
theorem entering_lt {op : ArrayOp} {slot : Nat} (other : ∀ elsz n i f, op ≠ .init elsz n i f) (allowed : Allowed op c)
    (enters : slot ∈ entering op c.array) : (slot + 1) * c.array.elsz < 2 ^ 64 := by
  have room : ∀ n, c.array.elsz * n < 2 ^ 64 → slot < n → (slot + 1) * c.array.elsz < 2 ^ 64 := by
    intro n whole low
    rw [Nat.mul_comm] at whole
    exact (Nat.mul_le_mul_right _ low).trans_lt whole
  cases op with
  | init elsz n i f => exact absurd rfl (other elsz n i f)
  | ensureLen n flags =>
      refine room n allowed.2.2 ?_
      rw [entering, resizeEnter] at enters
      split at enters
      · rw [List.mem_range'_1] at enters
        omega
      · exact List.mem_range.mp enters
  | incr =>
      refine room _ allowed.2.2 ?_
      rw [entering, List.mem_singleton] at enters
      omega
  | _ => cases enters

theorem step_unpaired {op : ArrayOp} {answer : Answer} {next : Client} (stepped : step junk op c = .ok (answer, next)) :
    ∃ flag, step junk op { c with paired := false } = .ok (answer, { next with paired := flag }) := by
  cases op with
  | init elsz n i f => exact ⟨next.paired, stepped⟩
  | _ =>
      rcases of_map_ok stepped with ⟨rest, run, same⟩
      cases same
      refine ⟨false, ?_⟩
      rw [step, run]
      rfl

/-- The other operations, whatever the calls so far. -/
theorem Tidy.base {op : ArrayOp} {answer : Answer} {next : Client} (tidy : Tidy c) (allowed : Allowed op c)
    (stepped : step junk op c = .ok (answer, next)) : Tidy next := by
  rcases step_unpaired stepped with ⟨flag, stepped'⟩
  have orderly : Orderly { c with paired := false } := ⟨tidy.sound, nofun, nofun⟩
  have allowed' : Allowed op { c with paired := false } := by
    cases op with
    | _ => exact allowed
  rcases @step_spec junk _ op orderly allowed' with ⟨answer', next', run, done⟩
  obtain rfl : { next with paired := flag } = next' := (Prod.mk.inj (Except.ok.inj (stepped'.symm.trans run))).2
  have sound : next.live = true → Sound next.array := done.orderly.sound
  have accounts := done.accounts
  by_cases first : ∃ elsz n i f, op = .init elsz n i f
  · rcases first with ⟨elsz, n, init, fini, rfl⟩
    rcases of_map_ok stepped with ⟨⟨code, events, ar⟩, run', same⟩
    cases same
    rcases arrayInit_sized allowed.2.2.2.1 run' with ⟨sized, same⟩
    refine ⟨sound, fun _ => sized, fun _ slot inside => ?_⟩
    have log : events = made .init init (List.range n) := accounts
    have low : slot < n := List.mem_range.mp (mem_made (log ▸ inside))
    change (slot + 1) * ar.elsz < 2 ^ 64
    rw [same, Nat.mul_comm]
    exact (Nat.mul_le_mul_left elsz low).trans_lt allowed.2.2.2.1
  · have other : ∀ elsz n i f, op ≠ .init elsz n i f := fun elsz n i f same => first ⟨elsz, n, i, f, same⟩
    have live : c.live = true := by
      cases op with
      | init elsz n i f => exact absurd rfl (other elsz n i f)
      | ensureLen n flags => exact allowed.1
      | incr => exact allowed.1
      | _ => exact allowed
    rcases step_sized other (tidy.sized live) allowed stepped with ⟨sized, same⟩
    refine ⟨sound, fun _ => sized, fun _ slot inside => ?_⟩
    have log : next.log = c.log ++ (made .fini c.array.fini (leaving op c.array) ++
        made .init c.array.init (entering op c.array)) := by
      cases op with
      | init elsz n i f => exact absurd rfl (other elsz n i f)
      | _ => exact accounts
    rw [same]
    rw [log, List.mem_append, List.mem_append] at inside
    rcases inside with before | gone | entered
    · exact tidy.bounded live slot before
    · exact absurd gone not_mem_made
    · exact entering_lt other allowed (mem_made entered)

/-- The loops call the callback on elements in memory only. -/
theorem calls_fit {f : Callback} {slots done : List Nat} {data after : Option Block} {res : Int}
    (run : calls elsz f false slots data = .ok (res, done, after)) :
    done = slots ∧ ∀ i ∈ slots, ∃ block, data = some block ∧ i * elsz + elsz ≤ block.size := by
  induction slots generalizing data done after res with
  | nil =>
      cases run
      exact ⟨rfl, nofun⟩
  | cons i slots ih =>
      cases data with
      | none => cases run
      | some block =>
          rw [calls] at run
          by_cases room : i * elsz + elsz ≤ block.size
          · simp only [if_pos room, Bool.false_eq_true, false_and, if_false] at run
            rcases of_map_ok run with ⟨⟨res', done', after'⟩, run', same⟩
            cases same
            rcases ih run' with ⟨rfl, rest⟩
            refine ⟨rfl, fun k inside => ?_⟩
            rcases List.mem_cons.mp inside with rfl | later
            · exact ⟨block, rfl, room⟩
            · rcases rest k later with ⟨written, same, fits⟩
              cases same
              exact ⟨block, rfl, fits⟩
          · rw [if_neg room] at run
            cases run

theorem grow_size (junk : Nat → UInt8) (sound : Sound ar) (n : Nat) :
    (grow junk n ar).data.map Block.size =
      if (grow junk n ar).datasz = 0 then none else some (grow junk n ar).datasz := by
  simp only [grow]
  by_cases less : ar.datasz < ar.elsz * n % 2 ^ 64
  · have large := le_ensureSetDatasz ar.datasz (ar.elsz * n % 2 ^ 64)
    rw [if_pos less]
    exact (if_neg (by simp only; omega)).symm
  · rw [if_neg less]
    exact sound.size

theorem extend_calls {f : Callback} (sound : Sound ar) (given : ar.init = some f) (more : ar.elnum < n)
    (run : extend junk n ar = .ok (events, next)) :
    events = (List.range' ar.elnum (n - ar.elnum)).map .init ∧ n * ar.elsz ≤ next.datasz ∧
      next.datasz = (grow junk n ar).datasz := by
  have same : (grow junk n ar).init = ar.init ∧ (grow junk n ar).elnum = ar.elnum := by
    simp only [grow]
    split
    · exact ⟨rfl, rfl⟩
    · exact ⟨rfl, rfl⟩
  rcases of_bind_ok run with ⟨⟨res, inits, last⟩, first, finish⟩
  rw [same.1, same.2, given, visit, grow_elsz] at first
  rcases of_map_ok first with ⟨⟨res', done, after⟩, called, shape⟩
  rcases calls_fit called with ⟨rfl, fit⟩
  cases shape
  cases finish
  refine ⟨rfl, ?_, rfl⟩
  have there : n - 1 ∈ List.range' ar.elnum (n - ar.elnum) := by
    rw [List.mem_range'_1]
    omega
  rcases fit (n - 1) there with ⟨block, memory, room⟩
  have size := grow_size junk sound n
  rw [memory, Option.map_some] at size
  split at size
  · cases size
  · have last : n - 1 + 1 = n := Nat.sub_add_cancel (Nat.lt_of_le_of_lt (Nat.zero_le _) more)
    rw [← Nat.succ_mul, Nat.succ_eq_add_one, last, Option.some.inj size] at room
    exact room

/-- What is known after `array_ensure_datasz` has returned. -/
structure Ensured (junk : Nat → UInt8) (n : Nat) (ar : Mnarray) (events : List Event) (next : Mnarray) : Prop where
  elsz : next.elsz = ar.elsz
  grown : ar.elnum < n → events = (List.range' ar.elnum (n - ar.elnum)).map .init ∧ n * ar.elsz ≤ next.datasz
  inits : ∀ slot, .init slot ∈ events → ar.elnum ≤ slot ∧ slot < n
  size : next.datasz = ar.datasz ∨ next.datasz = 0 ∨ next.datasz = (grow junk n ar).datasz

theorem arrayEnsureDatasz_ensured {f : Callback} (sound : Sound ar) (given : ar.init = some f)
    (run : arrayEnsureDatasz junk n arrayFlagSave ar = .ok (events, next)) : Ensured junk n ar events next := by
  rcases of_map_ok run with ⟨⟨events', mid⟩, ensured, same⟩
  cases same
  have flag : ¬ arrayFlagSave &&& arrayFlagSave = 0 := by decide
  rw [arrayEnsureLen, if_neg flag] at ensured
  by_cases more : ar.elnum < n
  · rw [if_pos more] at ensured
    rcases extend_calls sound given more ensured with ⟨calls, room, size⟩
    rcases of_bind_ok ensured with ⟨⟨res, inits, last⟩, first, finish⟩
    rcases visit_data first with ⟨data, rfl⟩
    cases finish
    refine ⟨grow_elsz junk n ar, fun _ => ⟨calls, room⟩, fun slot inside => ?_, .inr (.inr size)⟩
    rw [calls] at inside
    rcases List.mem_map.mp inside with ⟨k, there, same⟩
    cases same
    rw [List.mem_range'_1] at there
    omega
  · rw [if_neg more] at ensured
    by_cases fewer : n < ar.elnum
    · rw [if_pos fewer] at ensured
      rcases of_bind_ok ensured with ⟨⟨res, finis, last⟩, first, finish⟩
      have calls : finis = made .fini ar.fini (List.range' n (ar.elnum - n)) := by
        have inside : ∀ i ∈ List.range' n (ar.elnum - n), (i + 1) * ar.elsz ≤ ar.datasz := by
          intro i here
          rw [List.mem_range'_1] at here
          exact slot_fits (by omega) sound.fits
        rcases visit_spec ar .fini false sound.fini sound.size sound.positive inside with ⟨data, run', -, -⟩
        cases first.symm.trans run'
        rfl
      rcases visit_data first with ⟨data, rfl⟩
      cases finish
      refine ⟨?_, fun grows => absurd grows more, fun slot inside => absurd (calls ▸ inside) not_mem_made, ?_⟩
      · dsimp only
        split
        · rfl
        · rfl
      · dsimp only
        split
        · exact .inl rfl
        · exact .inr (.inl rfl)
    · rw [if_neg fewer] at ensured
      cases ensured
      exact ⟨rfl, fun grows => absurd grows more, by simp, .inl rfl⟩

theorem grow_datasz (junk : Nat → UInt8) (n : Nat) (ar : Mnarray) :
    (grow junk n ar).datasz = ar.datasz ∨ (grow junk n ar).datasz ≤ ar.elsz * n % 2 ^ 64 ∨
      (grow junk n ar).datasz ≤ 2 ^ 21 := by
  simp only [grow]
  by_cases less : ar.datasz < ar.elsz * n % 2 ^ 64
  · rw [if_pos less]
    exact .inr ((ensureSetDatasz_le _ _ (Nat.zero_lt_of_lt less) less).imp_left le_of_eq)
  · rw [if_neg less]
    exact .inl rfl

/-- A far index is not reached where its number of elements has wrapped. -/
theorem Ensured.short (ensured : Ensured junk n ar events next) (sound : Sound ar) (sized : Sized ar)
    (large : 2 ^ 21 ≤ idx) (low : n ≤ idx) (beyond : ar.datasz < ar.elsz * (idx + 1)) :
    next.datasz ≤ ar.elsz * idx := by
  have far : idx ≤ ar.elsz * idx := Nat.le_mul_of_pos_left _ sound.positive
  have old : ar.datasz ≤ ar.elsz * idx := by
    rcases sized with ⟨k, small, same⟩ | ⟨count, same⟩
    · have power : 2 ^ k ≤ 2 ^ 20 := Nat.pow_le_pow_right Nat.two_pos small
      omega
    · rw [same] at beyond ⊢
      exact Nat.mul_le_mul_left _ (Nat.le_of_lt_succ (Nat.lt_of_mul_lt_mul_left beyond))
  rcases ensured.size with same | zero | same
  · exact same ▸ old
  · omega
  · rcases grow_datasz junk n ar with kept | exact' | small
    · rw [same, kept]
      exact old
    · have wrapped : ar.elsz * n % 2 ^ 64 ≤ ar.elsz * n := Nat.mod_le _ _
      have less : ar.elsz * n ≤ ar.elsz * idx := Nat.mul_le_mul_left _ low
      omega
    · omega

theorem Ensured.datasz_lt (ensured : Ensured junk n ar events next) (bound : ar.datasz < 2 ^ 64) :
    next.datasz < 2 ^ 64 := by
  rcases ensured.size with same | zero | same
  · exact same ▸ bound
  · omega
  · have limit : ar.elsz * n % 2 ^ 64 < 2 ^ 64 := Nat.mod_lt _ (Nat.two_pow_pos 64)
    rcases grow_datasz junk n ar with kept | most | small
    · omega
    · omega
    · omega

/-- An element that has been set up once lies in memory. -/
theorem Tidy.reached (tidy : Tidy c) (live : c.live = true) {slot : Nat} (once : setups slot c.log 0 = 1) :
    (slot + 1) * c.array.elsz < 2 ^ 64 := by
  apply tidy.bounded live slot (mem_of_setups _)
  rw [once]
  exact Nat.one_pos

theorem setups_entered {log : List Event} {slot first : Nat} (m k : Nat) (past : setups slot log 0 = first) :
    setups slot (log ++ (List.range' m k).map .init) 0 = if m ≤ slot ∧ slot < m + k then first + 1 else first := by
  rw [setups_append, past, setups_inits List.nodup_range']
  simp only [List.mem_range'_1]

/-- From the index on where twice the number wraps, the new element is neither set up nor in memory. -/
theorem Tidy.near {next : Mnarray} (tidy : Tidy c) (live : c.live = true) (fits : idx + 1 < 2 ^ 32)
    (beyond : c.array.datasz < c.array.elsz * (idx + 1))
    (ensured : Ensured junk ((idx + 1) * 2 % 2 ^ 32) c.array events next) (last : .init idx ∈ c.log ++ events)
    (low : next.elsz * idx % 2 ^ 64 < next.datasz) : idx + 1 < 2 ^ 31 := by
  by_contra far
  have few : (idx + 1) * 2 % 2 ^ 32 ≤ idx := by omega
  have old : .init idx ∈ c.log := by
    rcases List.mem_append.mp last with before | now
    · exact before
    · exact absurd (ensured.inits idx now).2 (Nat.not_lt.mpr few)
  have room := tidy.bounded live idx old
  have short := ensured.short (tidy.sound live) (tidy.sized live) (by omega) few beyond
  have whole : c.array.elsz * idx < 2 ^ 64 := by
    rw [Nat.mul_comm]
    exact (Nat.mul_le_mul_right _ (Nat.le_succ idx)).trans_lt room
  rw [ensured.elsz, Nat.mod_eq_of_lt whole] at low
  omega

/-- A call behind the last element makes room, and the element is in it. -/
theorem of_getSafe_beyond {ar last : Mnarray} {offset : Nat} (beyond : ¬ idx < ar.elnum)
    (run : arrayGetSafe junk idx ar = .ok (offset, events, last)) :
    ∃ mid, makeRoom junk ((idx + 1) % 2 ^ 32) ar = .ok (events, mid) ∧ mid.elsz * idx % 2 ^ 64 < mid.datasz ∧
      last.elnum = (idx + 1) % 2 ^ 32 := by
  rw [arrayGetSafe, if_neg beyond] at run
  rcases of_bind_ok run with ⟨⟨events', mid⟩, room, finish⟩
  dsimp only at finish
  by_cases low : mid.elsz * idx % 2 ^ 64 < mid.datasz
  · rw [if_pos low] at finish
    cases finish
    exact ⟨mid, room, low, rfl⟩
  · rw [if_neg low] at finish
    cases finish

/-- What a call that has to grow the array, and sets up everything, tells about the state before. -/
theorem Tidy.ready_grown {next : Mnarray} {f : Callback} (tidy : Tidy c) (live : c.live = true)
    (given : c.array.init = some f) (fits : idx + 1 < 2 ^ 32) (inside : ¬ idx < c.array.elnum)
    (beyond : c.array.datasz < c.array.elsz * (idx + 1)) (less : c.array.datasz < c.array.elsz * (idx + 1) % 2 ^ 64)
    (ensured : arrayEnsureDatasz junk ((idx + 1) * 2 % 2 ^ 32) arrayFlagSave c.array = .ok (events, next))
    (low : next.elsz * idx % 2 ^ 64 < next.datasz) (once : ∀ slot < idx + 1, setups slot (c.log ++ events) 0 = 1) :
    idx + 1 < 2 ^ 31 ∧ c.array.elsz * (2 * (idx + 1)) < 2 ^ 64 ∧
      ∀ slot ≤ idx, setups slot c.log 0 = if slot < c.array.elnum then 1 else 0 := by
  have facts := arrayEnsureDatasz_ensured (tidy.sound live) given ensured
  have last : .init idx ∈ c.log ++ events := mem_of_setups (by rw [once idx (Nat.lt_succ_self idx)]; exact Nat.one_pos)
  have near := tidy.near live fits beyond facts last low
  have twice : (idx + 1) * 2 % 2 ^ 32 = 2 * (idx + 1) := by omega
  have more : c.array.elnum < 2 * (idx + 1) := by omega
  rw [twice] at facts
  rcases facts.grown more with ⟨calls, room⟩
  have bound := facts.datasz_lt (less.trans (Nat.mod_lt _ (Nat.two_pow_pos 64)))
  refine ⟨near, by rw [Nat.mul_comm]; exact room.trans_lt bound, fun slot here => ?_⟩
  have now := once slot (Nat.lt_succ_of_le here)
  rw [calls, setups_entered _ _ rfl] at now
  by_cases old : slot < c.array.elnum
  · rw [if_neg (by omega)] at now
    rw [if_pos old, now]
  · rw [if_pos (by omega)] at now
    rw [if_neg old]
    exact Nat.succ.inj now

theorem Tidy.ready (tidy : Tidy c) (permitted : Permitted (.getSafe idx) c)
    (initialises : Initialises junk (.getSafe idx) c) : Ready (.getSafe idx) c := by
  rcases permitted with ⟨live, given, fits⟩
  rcases Option.isSome_iff_exists.mp given with ⟨f, init⟩
  rcases initialises with ⟨offset, next, stepped, once⟩
  rcases of_map_ok stepped with ⟨⟨offset', events, last⟩, run, same⟩
  cases same
  change ∀ slot < last.elnum, setups slot (c.log ++ events) 0 = 1 at once
  rw [Ready]
  by_cases inside : idx < c.array.elnum
  · rw [arrayGetSafe, if_pos inside] at run
    rw [if_pos inside]
    cases run
    rw [List.append_nil] at once
    exact once
  rw [if_neg inside]
  rcases of_getSafe_beyond inside run with ⟨mid, ensured, low, elnum⟩
  rw [elnum] at once
  rw [makeRoom] at ensured
  by_cases wraps : idx + 1 = 2 ^ 32
  · rw [if_pos wraps]
    rw [wraps, Nat.mod_self, Nat.mul_zero, Nat.zero_mod, if_neg (Nat.not_lt_zero _)] at ensured
    cases ensured
    exact low
  rw [if_neg wraps]
  have count : (idx + 1) % 2 ^ 32 = idx + 1 := Nat.mod_eq_of_lt (by omega)
  rw [count] at once ensured
  have kept : events = [] → ∀ slot ≤ idx, setups slot c.log 0 = 1 := by
    rintro rfl slot near
    have here := once slot (Nat.lt_succ_of_le near)
    rwa [List.append_nil] at here
  by_cases spare : c.array.elsz * (idx + 1) ≤ c.array.datasz
  · rw [if_pos spare]
    have enough : ¬ c.array.datasz < c.array.elsz * (idx + 1) % 2 ^ 64 :=
      Nat.not_lt.mpr ((Nat.mod_le _ _).trans spare)
    rw [if_neg enough] at ensured
    cases ensured
    exact kept rfl
  rw [if_neg spare]
  by_cases less : c.array.datasz < c.array.elsz * (idx + 1) % 2 ^ 64
  · rw [if_pos less] at ensured
    exact tidy.ready_grown live init (by omega) inside (Nat.not_le.mp spare) less ensured low once
  · rw [if_neg less] at ensured
    cases ensured
    -- the product has wrapped, so the element cannot have been in memory
    have room := tidy.reached live (kept rfl idx (Nat.le_refl idx))
    rw [Nat.mul_comm] at room
    rw [Nat.mod_eq_of_lt room] at less
    exact absurd (Nat.not_lt.mp less) spare

/-- Where the room is enough, nothing but the length changes. -/
theorem Tidy.stays (tidy : Tidy c) (live : c.live = true) (beyond : ¬ idx < c.array.elnum) {count : Nat}
    (counts : (idx + 1) % 2 ^ 32 = count) (room : count * c.array.elsz ≤ c.array.datasz)
    (low : c.array.elsz * idx % 2 ^ 64 < c.array.datasz) (once : ∀ slot < count, setups slot c.log 0 = 1) :
    ∃ offset next, accessStep junk (.getSafe idx) c = .ok (.item offset, next) ∧
      (∀ slot < next.array.elnum, setups slot next.log 0 = 1) ∧ Tidy next := by
  have sound := tidy.sound live
  have enough : ¬ c.array.datasz < c.array.elsz * count % 2 ^ 64 := by
    rw [Nat.mul_comm] at room
    exact Nat.not_lt.mpr ((Nat.mod_le _ _).trans room)
  have same : makeRoom junk count c.array = .ok ([], c.array) := by
    rw [makeRoom]
    exact if_neg enough
  refine ⟨c.array.elsz * idx % 2 ^ 64, c.after [] { c.array with elnum := count }, ?_, ?_, ?_⟩
  · rw [accessStep, arrayGetSafe, if_neg beyond, counts]
    simp only [same, bind, Except.bind, if_pos low]
    rfl
  · rw [Client.after, List.append_nil]
    exact once
  · rw [Client.after, List.append_nil]
    exact ⟨fun _ => ⟨sound.positive, sound.size, room, sound.init, sound.fini⟩, tidy.sized, tidy.bounded⟩

/-- Where there are to be more elements, all of the new capacity is set up. -/
theorem Tidy.grows (tidy : Tidy c) (live : c.live = true) (given : c.array.init.isSome = true)
    (inside : ¬ idx < c.array.elnum) (beyond : c.array.datasz < c.array.elsz * (idx + 1)) (near : idx + 1 < 2 ^ 31)
    (whole : c.array.elsz * (2 * (idx + 1)) < 2 ^ 64)
    (once : ∀ slot ≤ idx, setups slot c.log 0 = if slot < c.array.elnum then 1 else 0) :
    ∃ offset next, accessStep junk (.getSafe idx) c = .ok (.item offset, next) ∧
      (∀ slot < next.array.elnum, setups slot next.log 0 = 1) ∧ Tidy next := by
  have sound := tidy.sound live
  have count : (idx + 1) % 2 ^ 32 = idx + 1 := Nat.mod_eq_of_lt (by omega)
  have twice : (idx + 1) * 2 % 2 ^ 32 = 2 * (idx + 1) := by omega
  have more : c.array.elnum < 2 * (idx + 1) := by omega
  have flag : ¬ arrayFlagSave &&& arrayFlagSave = 0 := by decide
  have half : c.array.elsz * (idx + 1) < 2 ^ 64 := (Nat.mul_le_mul_left _ (by omega)).trans_lt whole
  have less : c.array.datasz < c.array.elsz * (idx + 1) % 2 ^ 64 := by rwa [Nat.mod_eq_of_lt half]
  have part : c.array.elsz * idx < 2 ^ 64 := (Nat.mul_le_mul_left _ (Nat.le_succ idx)).trans_lt half
  rcases extend_spec junk sound more whole with ⟨events, next, run, turned, -⟩
  rcases extend_sized (tidy.sized live) whole run with ⟨sized, same⟩
  have calls : events = (List.range' c.array.elnum (2 * (idx + 1) - c.array.elnum)).map .init := by
    rw [turned.events, made_nil, List.nil_append, made_some given]
  have room := turned.sound.fits
  rw [turned.elnum, same] at room
  have steps : 0 < c.array.elsz := sound.positive
  have low : c.array.elsz * idx < next.datasz := by
    have onward : c.array.elsz * idx < c.array.elsz * (2 * (idx + 1)) := Nat.mul_lt_mul_of_pos_left (by omega) steps
    rw [Nat.mul_comm _ c.array.elsz] at room
    exact onward.trans_le room
  have ensured : makeRoom junk (idx + 1) c.array = .ok (events, { next with elnum := c.array.elnum }) := by
    rw [makeRoom]
    simp only [if_pos less]
    rw [twice, arrayEnsureDatasz, arrayEnsureLen, if_neg flag, if_pos more, run]
    rfl
  refine ⟨c.array.elsz * idx, c.after events { next with elnum := idx + 1 }, ?_, ?_, ?_⟩
  · rw [accessStep, arrayGetSafe, if_neg inside, count]
    simp only [ensured, bind, Except.bind, same, Nat.mod_eq_of_lt part, if_pos low]
    rfl
  · intro slot here
    have before := once slot (Nat.le_of_lt_succ here)
    rw [Client.after, calls, setups_entered _ _ before]
    have bound : slot < idx + 1 := here
    by_cases old : slot < c.array.elnum
    · rw [if_neg (by omega), if_pos old]
    · rw [if_pos (by omega), if_neg old]
  · refine ⟨fun _ => ⟨turned.sound.positive, turned.sound.size, ?_, turned.sound.init, turned.sound.fini⟩,
      fun _ => sized, fun _ slot inside => ?_⟩
    · change (idx + 1) * next.elsz ≤ next.datasz
      rw [same]
      exact (Nat.mul_le_mul_right _ (by omega)).trans room
    · change (slot + 1) * next.elsz < 2 ^ 64
      rw [same]
      rcases List.mem_append.mp inside with before | now
      · exact tidy.bounded live slot before
      · rw [calls] at now
        rcases List.mem_map.mp now with ⟨k, there, equal⟩
        cases equal
        rw [List.mem_range'_1] at there
        rw [Nat.mul_comm] at whole
        exact (Nat.mul_le_mul_right _ (by omega)).trans_lt whole

theorem Tidy.getSafe (tidy : Tidy c) (permitted : Permitted (.getSafe idx) c) (ready : Ready (.getSafe idx) c) :
    ∃ offset next, accessStep junk (.getSafe idx) c = .ok (.item offset, next) ∧
      (∀ slot < next.array.elnum, setups slot next.log 0 = 1) ∧ Tidy next := by
  rcases permitted with ⟨live, given, fits⟩
  rw [Ready] at ready
  by_cases inside : idx < c.array.elnum
  · rw [if_pos inside] at ready
    have same : c.after [] c.array = c := by rw [Client.after, List.append_nil]
    refine ⟨c.array.elsz * idx, c, ?_, ready, tidy⟩
    rw [accessStep, arrayGetSafe, if_pos inside]
    simp only [Except.map, same]
  rw [if_neg inside] at ready
  by_cases wraps : idx + 1 = 2 ^ 32
  · rw [if_pos wraps] at ready
    have counts : (idx + 1) % 2 ^ 32 = 0 := by rw [wraps, Nat.mod_self]
    apply tidy.stays live inside counts _ ready
    · exact fun slot below => absurd below (Nat.not_lt_zero slot)
    · rw [Nat.zero_mul]
      exact Nat.zero_le _
  rw [if_neg wraps] at ready
  have counts : (idx + 1) % 2 ^ 32 = idx + 1 := Nat.mod_eq_of_lt (by omega)
  by_cases spare : c.array.elsz * (idx + 1) ≤ c.array.datasz
  · rw [if_pos spare] at ready
    have low : c.array.elsz * idx % 2 ^ 64 < c.array.datasz := by
      have positive := (tidy.sound live).positive
      have less : c.array.elsz * idx < c.array.elsz * (idx + 1) :=
        Nat.mul_lt_mul_of_pos_left (Nat.lt_succ_self idx) positive
      exact (Nat.mod_le _ _).trans_lt (less.trans_le spare)
    rw [Nat.mul_comm] at spare
    exact tidy.stays live inside counts spare low fun slot below => ready slot (Nat.le_of_lt_succ below)
  · rw [if_neg spare] at ready
    rcases ready with ⟨near, whole, once⟩
    exact tidy.grows live given inside (Nat.not_le.mp spare) near whole once

/-- Growing access sets up each element once exactly if what it adds lies in new capacity, or has
been set up with the capacity before. -/
theorem access_initialises_iff (junk : Nat → UInt8) (ar : Mnarray) {ops : List AccessOp}
    (within : Along (accessStep junk) Permitted ops (Client.fresh ar)) :
    Along (accessStep junk) (Initialises junk) ops (Client.fresh ar) ↔
      Along (accessStep junk) Ready ops (Client.fresh ar) := by
  have first : Tidy (Client.fresh ar) := ⟨nofun, nofun, nofun⟩
  apply along_iff_within _ _ first within
  · intro op c permitted tidy
    cases op with
    | base op => exact Iff.rfl
    | getSafe idx =>
        constructor
        · exact tidy.ready permitted
        · intro ready
          rcases @Tidy.getSafe junk _ _ tidy permitted ready with ⟨offset, next, run, once, -⟩
          exact ⟨offset, next, run, once⟩
  · intro op c answer next permitted tidy initialises stepped
    cases op with
    | base op => exact tidy.base permitted stepped
    | getSafe idx =>
        have ready := tidy.ready permitted initialises
        rcases @Tidy.getSafe junk _ _ tidy permitted ready with ⟨offset, next', run, -, after⟩
        cases stepped.symm.trans run
        exact after

/-- Callbacks that do nothing. -/
def idle : Option Callback := some fun bytes => (0, bytes)

theorem idle_succeeds : Succeeds idle := fun _ same _ => Option.some.inj same ▸ rfl

/-- An element in new memory. -/
theorem sampleAccess_initialises : Along (accessStep fun _ => 0) (Initialises fun _ => 0)
    [.base (.init 0x100000 0 idle idle), .getSafe 0] (Client.fresh ⟨0, 0, none, 0, none, none⟩) := by
  let c : Client := ⟨⟨0x100000, 0, none, 0, idle, idle⟩, true, [], true⟩
  have first : accessStep (fun _ => 0) (.base (.init 0x100000 0 idle idle))
      (Client.fresh ⟨0, 0, none, 0, none, none⟩) = .ok (.code 0, c) := rfl
  apply (access_initialises_iff _ _ _).mpr
  · refine ⟨trivial, fun answer next stepped => ?_⟩
    cases first.symm.trans stepped
    refine ⟨?_, fun _ _ _ => trivial⟩
    have beyond : ¬ 0x100000 * (0 + 1) ≤ 0 := by decide
    have apart : ¬ 0 + 1 = 2 ^ 32 := by decide
    rw [Ready, if_neg (Nat.lt_irrefl 0), if_neg apart, if_neg beyond]
    refine ⟨by decide, by decide, fun slot low => ?_⟩
    obtain rfl : slot = 0 := Nat.le_zero.mp low
    rfl
  · refine ⟨⟨nofun, by decide, by decide, by decide, idle_succeeds, idle_succeeds⟩, fun answer next stepped => ?_⟩
    cases first.symm.trans stepped
    exact ⟨⟨rfl, rfl, by decide⟩, fun _ _ _ => trivial⟩

/-- An element that has left the array comes back without being set up. -/
theorem spareAccess_not_initialised : ¬ Along (accessStep fun _ => 0) (Initialises fun _ => 0)
    [.base (.init 0x100000 2 idle idle), .base .decr, .getSafe 1] (Client.fresh ⟨0, 0, none, 0, none, none⟩) := by
  intro run
  have trace : ((Memory.execute (accessStep fun _ => 0) [.base (.init 0x100000 2 idle idle), .base .decr]
      (Client.fresh ⟨0, 0, none, 0, none, none⟩)).bind fun past =>
        accessStep (fun _ => 0) (.getSafe 1) past.2).map (fun last =>
          (last.2.array.elnum, setups 1 last.2.log 0)) = .ok (2, 0) := rfl
  cases ran : Memory.execute (accessStep fun _ => 0) [.base (.init 0x100000 2 idle idle), .base .decr]
      (Client.fresh ⟨0, 0, none, 0, none, none⟩) with
  | error fault =>
      rw [ran] at trace
      cases trace
  | ok past =>
      have whole : Along (accessStep fun _ => 0) (Initialises fun _ => 0)
          ([.base (.init 0x100000 2 idle idle), .base .decr] ++ [.getSafe 1])
          (Client.fresh ⟨0, 0, none, 0, none, none⟩) := run
      rcases whole.last ran with ⟨offset, next, stepped, once⟩
      rw [ran] at trace
      change (accessStep (fun _ => 0) (.getSafe 1) past.2).map _ = _ at trace
      rw [stepped] at trace
      rcases Prod.mk.inj (Except.ok.inj trace) with ⟨two, zero⟩
      have one := once 1 (by rw [two]; decide)
      rw [zero] at one
      cases one

end MnCommon.Arrays
