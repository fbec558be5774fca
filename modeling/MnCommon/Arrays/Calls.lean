import MnCommon.Arrays.Model

/-! What the functions do to a sound array: which callbacks they call, where the
elements lie afterwards, and which bytes stay. -/

namespace MnCommon.Arrays

open Memory (Fault)

def Succeeds (cb : Option Callback) : Prop := ∀ f, cb = some f → ∀ bytes, (f bytes).1 = 0

/-- A byte of the elements, if there is memory for them. -/
def Mnarray.byteAt (ar : Mnarray) (j : Nat) : Option UInt8 := ar.data.map fun block => block.byte j

/-- An array between `array_init` and `array_fini`: `datasz` is the size of its memory,
and the elements fit in. -/
structure Sound (ar : Mnarray) : Prop where
  positive : 0 < ar.elsz
  size : ar.data.map Block.size = if ar.datasz = 0 then none else some ar.datasz
  fits : ar.elnum * ar.elsz ≤ ar.datasz
  init : Succeeds ar.init
  fini : Succeeds ar.fini

variable {junk : Nat → UInt8} {ar next : Mnarray} {elsz n m v : Nat} {cb : Option Callback} {slots : List Nat}

theorem calls_spec {f : Callback} (heed : Bool) (succeeds : ∀ bytes, (f bytes).1 = 0) (slots : List Nat)
    (block : Block) (fits : ∀ i ∈ slots, i * elsz + elsz ≤ block.size) :
    ∃ after, calls elsz f heed slots (some block) = .ok (0, slots, some after) ∧ after.size = block.size ∧
      ∀ j, (∀ i ∈ slots, j < i * elsz ∨ i * elsz + elsz ≤ j) → after.byte j = block.byte j := by
  induction slots generalizing block with
  | nil => exact ⟨block, rfl, rfl, fun _ _ => rfl⟩
  | cons i slots ih =>
      rcases List.forall_mem_cons.mp fits with ⟨here, rest⟩
      let bytes := f fun k => block.byte (i * elsz + k)
      rcases ih (block.write (i * elsz) elsz bytes.2) rest with ⟨after, run, size, same⟩
      refine ⟨after, ?_, size, fun j outside => ?_⟩
      · have fine : ¬ (heed = true ∧ bytes.1 ≠ 0) := fun stops => stops.2 (succeeds _)
        rw [calls, if_pos here]
        simp only [bytes] at run fine
        simp only [if_neg fine, run]
        rfl
      · rcases List.forall_mem_cons.mp outside with ⟨away, others⟩
        have untouched : (block.write (i * elsz) elsz bytes.2).byte j = block.byte j :=
          if_neg (by omega)
        exact (same j others).trans untouched

/-- The calls that `visit` makes. -/
def made (kind : Nat → Event) (cb : Option Callback) (slots : List Nat) : List Event :=
  if cb.isSome then slots.map kind else []

theorem visit_spec (ar : Mnarray) (kind : Nat → Event) (heed : Bool) (succeeds : Succeeds cb)
    (size : ar.data.map Block.size = if ar.datasz = 0 then none else some ar.datasz)
    (positive : 0 < ar.elsz) (fits : ∀ i ∈ slots, (i + 1) * ar.elsz ≤ ar.datasz) :
    ∃ data, visit kind cb heed slots ar = .ok (0, made kind cb slots, { ar with data := data }) ∧
      data.map Block.size = (if ar.datasz = 0 then none else some ar.datasz) ∧
      ∀ j, (∀ i ∈ slots, j < i * ar.elsz ∨ (i + 1) * ar.elsz ≤ j) →
        data.map (fun block => block.byte j) = ar.byteAt j := by
  cases cb with
  | none => exact ⟨ar.data, rfl, size, fun _ _ => rfl⟩
  | some f =>
      cases slots with
      | nil => exact ⟨ar.data, rfl, size, fun _ _ => rfl⟩
      | cons i slots =>
          have some_memory : ar.datasz ≠ 0 := by
            have first := fits i List.mem_cons_self
            have wide : ar.elsz ≤ (i + 1) * ar.elsz := Nat.le_mul_of_pos_left _ (Nat.succ_pos i)
            omega
          rw [if_neg some_memory] at size
          rcases Option.map_eq_some_iff.mp size with ⟨block, memory, same⟩
          have room : ∀ k ∈ i :: slots, k * ar.elsz + ar.elsz ≤ block.size := by
            intro k inside
            rw [same, ← Nat.succ_mul]
            exact fits k inside
          rcases calls_spec heed (succeeds f rfl) (i :: slots) block room with ⟨after, run, kept, outside⟩
          refine ⟨some after, ?_, ?_, fun j away => ?_⟩
          · rw [visit, memory, run]
            rfl
          · rw [if_neg some_memory, Option.map_some, kept, same]
          · rw [Mnarray.byteAt, memory, Option.map_some, Option.map_some, outside j fun k inside => ?_]
            rw [← Nat.succ_mul]
            exact away k inside

theorem le_shiftUp (m v : Nat) (positive : 0 < m) : v ≤ shiftUp m v positive := by
  rw [shiftUp]
  by_cases low : m < v
  · rw [if_pos low]
    exact le_shiftUp (m * 2) v _
  · rw [if_neg low]
    exact not_lt.mp low
termination_by v - m

theorem le_ensureSetDatasz (m v : Nat) : v ≤ ensureSetDatasz m v := by
  rw [ensureSetDatasz]
  split
  · exact le_rfl
  · split
    · exact le_shiftUp ..
    · exact le_shiftUp ..

/-- The array is made large enough and keeps what is in it. -/
theorem grow_spec (junk : Nat → UInt8) (sound : Sound ar) (whole : ar.elsz * n < 2 ^ 64) :
    ∃ data datasz, grow junk n ar = { ar with datasz := datasz, data := data } ∧
      data.map Block.size = (if datasz = 0 then none else some datasz) ∧ ar.datasz ≤ datasz ∧
      n * ar.elsz ≤ datasz ∧
      ∀ j < ar.datasz, data.map (fun block => block.byte j) = ar.byteAt j := by
  have size : ar.elsz * n % 2 ^ 64 = n * ar.elsz := by rw [Nat.mod_eq_of_lt whole, Nat.mul_comm]
  rw [grow, size]
  by_cases less : ar.datasz < n * ar.elsz
  · have large := le_ensureSetDatasz ar.datasz (n * ar.elsz)
    have positive : ensureSetDatasz ar.datasz (n * ar.elsz) ≠ 0 := by omega
    refine ⟨_, _, if_pos less, ?_, by omega, large, fun j inside => ?_⟩
    · rw [if_neg positive]
      rfl
    · have memory := sound.size
      rw [if_neg (by omega)] at memory
      rcases Option.map_eq_some_iff.mp memory with ⟨block, here, same⟩
      rw [Mnarray.byteAt, here, Option.map_some, Option.map_some, realloc]
      exact congrArg some (if_pos (by rwa [same]))
  · exact ⟨ar.data, ar.datasz, if_neg less, sound.size, le_rfl, not_lt.mp less, fun _ _ => rfl⟩

/-- Some elements have left, then some have entered; `n` of them are there now. -/
structure Turned (ar : Mnarray) (out enter : List Nat) (n : Nat) (events : List Event) (next : Mnarray) :
    Prop where
  sound : Sound next
  elnum : next.elnum = n
  init : next.init = ar.init
  fini : next.fini = ar.fini
  events : events = made .fini ar.fini out ++ made .init ar.init enter

/-- The elements that are there before and after have the same bytes. -/
def SamePrefix (ar next : Mnarray) : Prop :=
  ∀ j < min ar.elnum next.elnum * ar.elsz, next.byteAt j = ar.byteAt j

theorem made_nil (kind : Nat → Event) (cb : Option Callback) : made kind cb [] = [] := by
  rw [made, List.map_nil, ite_self]

theorem slot_fits {i : Nat} (low : i < n) (room : n * elsz ≤ m) : (i + 1) * elsz ≤ m :=
  (Nat.mul_le_mul_right elsz low).trans room

theorem release_spec (sound : Sound ar) : Sound { release ar with elnum := 0 } :=
  ⟨sound.positive, rfl, by rw [Nat.zero_mul]; exact Nat.zero_le _, sound.init, sound.fini⟩

theorem extend_spec (junk : Nat → UInt8) (sound : Sound ar) (more : ar.elnum < n)
    (whole : ar.elsz * n < 2 ^ 64) :
    ∃ events next, extend junk n ar = .ok (events, next) ∧
      Turned ar [] (List.range' ar.elnum (n - ar.elnum)) n events next ∧ SamePrefix ar next := by
  rcases grow_spec junk sound whole with ⟨data, datasz, grown, size, larger, room, same⟩
  have inside : ∀ i ∈ List.range' ar.elnum (n - ar.elnum), (i + 1) * ar.elsz ≤ datasz := by
    intro i here
    rw [List.mem_range'_1] at here
    exact slot_fits (by omega) room
  rcases visit_spec { ar with datasz := datasz, data := data } .init false sound.init size sound.positive
    inside with ⟨data', run, size', same'⟩
  refine ⟨made .init ar.init (List.range' ar.elnum (n - ar.elnum)),
    { ar with elnum := n, datasz := datasz, data := data' }, ?_, ?_, fun j low => ?_⟩
  · simp only [extend, grown, run, bind, Except.bind, pure, Except.pure]
  · exact ⟨⟨sound.positive, size', room, sound.init, sound.fini⟩, rfl, rfl, rfl, by rw [made_nil, List.nil_append]⟩
  · have below : j < ar.elnum * ar.elsz := by
      rwa [min_eq_left more.le] at low
    refine (same' j fun i here => .inl ?_).trans (same j (below.trans_le sound.fits))
    rw [List.mem_range'_1] at here
    exact below.trans_le (Nat.mul_le_mul_right ar.elsz here.1)

theorem shrink_spec (sound : Sound ar) (fewer : n < ar.elnum) :
    ∃ events next, shrink n ar = .ok (events, next) ∧
      Turned ar (List.range' n (ar.elnum - n)) [] n events next ∧ SamePrefix ar next := by
  have inside : ∀ i ∈ List.range' n (ar.elnum - n), (i + 1) * ar.elsz ≤ ar.datasz := by
    intro i here
    rw [List.mem_range'_1] at here
    exact slot_fits (by omega) sound.fits
  rcases visit_spec ar .fini false sound.fini sound.size sound.positive inside with ⟨data, run, size, same⟩
  let after : Mnarray := { ar with data := data }
  have sound' : Sound after := ⟨sound.positive, size, sound.fits, sound.init, sound.fini⟩
  by_cases some : 0 < n
  · refine ⟨made .fini ar.fini (List.range' n (ar.elnum - n)), { after with elnum := n }, ?_, ?_, fun j low => ?_⟩
    · simp only [shrink, run, bind, Except.bind, pure, Except.pure, if_pos some, after]
    · refine ⟨⟨sound.positive, size, ?_, sound.init, sound.fini⟩, rfl, rfl, rfl, by rw [made_nil, List.append_nil]⟩
      exact (Nat.mul_le_mul_right ar.elsz fewer.le).trans sound.fits
    · refine same j fun i here => .inl ?_
      rw [min_eq_right fewer.le] at low
      rw [List.mem_range'_1] at here
      exact low.trans_le (Nat.mul_le_mul_right ar.elsz here.1)
  · obtain rfl : n = 0 := Nat.eq_zero_of_not_pos some
    refine ⟨made .fini ar.fini (List.range' 0 (ar.elnum - 0)), { release after with elnum := 0 }, ?_, ?_,
      fun j low => ?_⟩
    · simp only [shrink, run, bind, Except.bind, pure, Except.pure, if_neg some, after]
    · exact ⟨release_spec sound', rfl, rfl, rfl, by rw [made_nil, List.append_nil]⟩
    · rw [Nat.min_zero, Nat.zero_mul] at low
      exact absurd low (Nat.not_lt_zero j)

theorem replaceAll_spec (junk : Nat → UInt8) (sound : Sound ar) (whole : ar.elsz * n < 2 ^ 64) :
    ∃ events next, replaceAll junk n ar = .ok (events, next) ∧
      Turned ar (List.range ar.elnum) (List.range n) n events next := by
  have inside : ∀ i ∈ List.range ar.elnum, (i + 1) * ar.elsz ≤ ar.datasz := fun i here =>
    slot_fits (List.mem_range.mp here) sound.fits
  rcases visit_spec ar .fini false sound.fini sound.size sound.positive inside with ⟨data, run, size, -⟩
  let mid : Mnarray := { ar with data := data }
  have sound' : Sound mid := ⟨sound.positive, size, sound.fits, sound.init, sound.fini⟩
  have room : ∃ data datasz, (if 0 < n then grow junk n mid else release mid) =
      { mid with datasz := datasz, data := data } ∧
      data.map Block.size = (if datasz = 0 then none else some datasz) ∧ n * ar.elsz ≤ datasz := by
    by_cases some : 0 < n
    · rcases grow_spec junk sound' whole with ⟨data, datasz, grown, size', -, room, -⟩
      exact ⟨data, datasz, (if_pos some).trans grown, size', room⟩
    · obtain rfl : n = 0 := Nat.eq_zero_of_not_pos some
      exact ⟨none, 0, if_neg some, rfl, by rw [Nat.zero_mul]⟩
  rcases room with ⟨data', datasz, resized, size', room⟩
  have inside' : ∀ i ∈ List.range n, (i + 1) * ar.elsz ≤ datasz := fun i here =>
    slot_fits (List.mem_range.mp here) room
  rcases visit_spec { mid with datasz := datasz, data := data' } .init false sound.init size'
    sound.positive inside' with ⟨data'', run', size'', -⟩
  refine ⟨made .fini ar.fini (List.range ar.elnum) ++ made .init ar.init (List.range n),
    { ar with elnum := n, datasz := datasz, data := data'' }, ?_, ?_⟩
  · simp only [mid] at resized run'
    simp only [replaceAll, run, bind, Except.bind, pure, Except.pure, resized, run']
  · exact ⟨⟨sound.positive, size'', room, sound.init, sound.fini⟩, rfl, rfl, rfl, rfl⟩

/-- The elements that leave and those that enter where the length becomes `n`. -/
def resizeOut (save : Bool) (n : Nat) (ar : Mnarray) : List Nat :=
  if save then List.range' n (ar.elnum - n) else List.range ar.elnum

def resizeEnter (save : Bool) (n : Nat) (ar : Mnarray) : List Nat :=
  if save then List.range' ar.elnum (n - ar.elnum) else List.range n

def saves (flags : UInt32) : Bool := flags &&& arrayFlagSave ≠ 0

/-- Nothing is multiplied where saved elements become fewer. -/
theorem arrayEnsureLen_spec (junk : Nat → UInt8) (flags : UInt32) (sound : Sound ar)
    (whole : (saves flags = true → ar.elnum < n) → ar.elsz * n < 2 ^ 64) :
    ∃ events next, arrayEnsureLen junk n flags ar = .ok (events, next) ∧
      Turned ar (resizeOut (saves flags) n ar) (resizeEnter (saves flags) n ar) n events next ∧
      (saves flags = true → SamePrefix ar next) := by
  rw [arrayEnsureLen]
  by_cases keep : saves flags = true
  · have flag : ¬ flags &&& arrayFlagSave = 0 := of_decide_eq_true keep
    rw [if_neg flag, resizeOut, resizeEnter, if_pos keep, if_pos keep]
    by_cases more : ar.elnum < n
    · rcases extend_spec junk sound more (whole fun _ => more) with
        ⟨events, next, run, turned, same⟩
      rw [Nat.sub_eq_zero_of_le more.le]
      exact ⟨events, next, (if_pos more).trans run, turned, fun _ => same⟩
    · rw [if_neg more]
      by_cases fewer : n < ar.elnum
      · rcases shrink_spec sound fewer with ⟨events, next, run, turned, same⟩
        rw [Nat.sub_eq_zero_of_le fewer.le]
        exact ⟨events, next, (if_pos fewer).trans run, turned, fun _ => same⟩
      · obtain rfl : n = ar.elnum := by omega
        refine ⟨[], ar, if_neg fewer, ⟨sound, rfl, rfl, rfl, ?_⟩, fun _ _ _ => rfl⟩
        rw [Nat.sub_self, List.range'_zero, made_nil, made_nil, List.append_nil]
  · have flag : flags &&& arrayFlagSave = 0 := by
      by_contra kept
      exact keep (decide_eq_true kept)
    rcases replaceAll_spec junk sound (whole fun kept => absurd kept keep) with ⟨events, next, run, turned⟩
    rw [if_pos flag, resizeOut, resizeEnter, if_neg keep, if_neg keep]
    exact ⟨events, next, run, turned, fun kept => absurd kept keep⟩

theorem arrayDecrFast_spec (sound : Sound ar) (some : ar.elnum ≠ 0) :
    ∃ events next, arrayDecrFast ar = .ok (0, events, next) ∧
      Turned ar [ar.elnum - 1] [] (ar.elnum - 1) events next ∧ SamePrefix ar next := by
  have inside : ∀ i ∈ [ar.elnum - 1], (i + 1) * ar.elsz ≤ ar.datasz := by
    intro i here
    obtain rfl := List.mem_singleton.mp here
    exact slot_fits (by omega) sound.fits
  rcases visit_spec { ar with elnum := ar.elnum - 1 } .fini false sound.fini sound.size sound.positive
    inside with ⟨data, run, size, same⟩
  refine ⟨made .fini ar.fini [ar.elnum - 1], { ar with elnum := ar.elnum - 1, data := data }, ?_, ?_, fun j low => ?_⟩
  · simp only [arrayDecrFast, if_neg some, run]
    rfl
  · refine ⟨⟨sound.positive, size, ?_, sound.init, sound.fini⟩, rfl, rfl, rfl, by rw [made_nil, List.append_nil]⟩
    exact (Nat.mul_le_mul_right ar.elsz (Nat.sub_le _ _)).trans sound.fits
  · refine same j fun i here => .inl ?_
    obtain rfl := List.mem_singleton.mp here
    rwa [min_eq_right (Nat.sub_le _ _)] at low

theorem arrayClear_spec (sound : Sound ar) :
    ∃ events next, arrayClear ar = .ok (0, events, next) ∧ Turned ar (List.range ar.elnum) [] 0 events next := by
  have inside : ∀ i ∈ List.range ar.elnum, (i + 1) * ar.elsz ≤ ar.datasz := fun i here =>
    slot_fits (List.mem_range.mp here) sound.fits
  rcases visit_spec ar .fini true sound.fini sound.size sound.positive inside with ⟨data, run, size, -⟩
  refine ⟨made .fini ar.fini (List.range ar.elnum), { ar with elnum := 0, data := data }, ?_, ?_⟩
  · rw [arrayClear, run]
    rfl
  · refine ⟨⟨sound.positive, size, ?_, sound.init, sound.fini⟩, rfl, rfl, rfl, by rw [made_nil, List.append_nil]⟩
    exact (Nat.zero_mul _).trans_le (Nat.zero_le _)

/-- `array_fini` tears down all elements and leaves none. -/
theorem arrayFini_spec (sound : Sound ar) :
    ∃ next, arrayFini ar = .ok (0, made .fini ar.fini (List.range ar.elnum), next) ∧ next.elnum = 0 := by
  have inside : ∀ i ∈ List.range ar.elnum, (i + 1) * ar.elsz ≤ ar.datasz := fun i here =>
    slot_fits (List.mem_range.mp here) sound.fits
  rcases visit_spec ar .fini false sound.fini sound.size sound.positive inside with ⟨data, run, -, -⟩
  cases memory : ar.data with
  | none =>
      have empty : ar.elnum = 0 := by
        have size := sound.size
        have fits := sound.fits
        rw [memory, Option.map_none] at size
        have none_left : ar.datasz = 0 := by
          by_contra some
          rw [if_neg some] at size
          cases size
        rw [none_left] at fits
        exact (Nat.mul_eq_zero.mp (Nat.le_zero.mp fits)).resolve_right sound.positive.ne'
      rw [empty, List.range_zero, made_nil, arrayFini, memory]
      exact ⟨_, rfl, rfl⟩
  | some block =>
      rw [arrayFini, memory]
      simp only [run, Except.map]
      exact ⟨_, rfl, rfl⟩

theorem arrayInit_spec (junk : Nat → UInt8) {init fini : Option Callback} (positive : 0 < elsz)
    (whole : elsz * n < 2 ^ 64)
    (initOk : Succeeds init) (finiOk : Succeeds fini) :
    ∃ next, arrayInit junk elsz n init fini = .ok (0, made .init init (List.range n), next) ∧ Sound next ∧
      next.elnum = n ∧ next.init = init ∧ next.fini = fini := by
  have fit : elsz * n % 2 ^ 64 = n * elsz := by rw [Nat.mod_eq_of_lt whole, Nat.mul_comm]
  rw [arrayInit, if_neg positive.ne', fit]
  by_cases some : 0 < n
  · have bytes : 0 < n * elsz := Nat.mul_pos some positive
    simp only [if_pos some, if_pos bytes]
    generalize chosen : (if smallDatasz ≤ n * elsz then n * elsz else
      shiftUp 1 (n * elsz) Nat.one_pos) = size
    have room : n * elsz ≤ size := by
      rw [← chosen]
      split
      · exact le_rfl
      · exact le_shiftUp ..
    have inside : ∀ i ∈ List.range n, (i + 1) * elsz ≤ size := fun i here =>
      slot_fits (List.mem_range.mp here) room
    let start : Mnarray := ⟨elsz, n, Option.some (realloc junk none size), size, init, fini⟩
    have allocated : start.data.map Block.size = if start.datasz = 0 then none else Option.some start.datasz :=
      (if_neg (bytes.trans_le room).ne').symm
    rcases visit_spec start .init true initOk allocated positive inside with ⟨data, run, size', -⟩
    refine ⟨{ start with data := data }, ?_, ⟨positive, size', room, initOk, finiOk⟩, rfl, rfl, rfl⟩
    change (visit .init init true (List.range n) start).map _ = _
    rw [run]
    rfl
  · obtain rfl : n = 0 := Nat.eq_zero_of_not_pos some
    have small : ¬ smallDatasz ≤ 0 * elsz := by
      rw [Nat.zero_mul]
      decide
    have nothing : ¬ 0 < 0 * elsz := by rw [Nat.zero_mul]; exact Nat.lt_irrefl 0
    simp only [if_neg some, if_neg small, if_neg nothing]
    refine ⟨_, by rw [List.range_zero, made_nil], ⟨positive, rfl, ?_, initOk, finiOk⟩, rfl, rfl, rfl⟩
    exact (Nat.zero_mul _).le

end MnCommon.Arrays
