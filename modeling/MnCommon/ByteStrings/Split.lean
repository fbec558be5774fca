import MnCommon.ByteStrings.Search

/-! The pieces that `bytes_split_iter` passes on. -/

namespace MnCommon.ByteStrings

open Memory Substrings

variable {A S : Type} {system : Allocator MnBytes} {s next : BytesStore} {x t : MnBytes} {a : Addr} {p : Ptr}
  {data text behind delim piece : List UInt8} {sz fuel p0 : Nat}

/-- The temporary string with a piece and a NUL. -/
def MnBytes.pieced (t : MnBytes) (piece : List UInt8) (room : piece.length + 1 ≤ t.data.length) : MnBytes :=
  { t with
    sz := piece.length + 1
    hash := 0
    data := copyInto t.data 0 (piece ++ [0])
    fits := by rwa [length_copyInto] }

theorem pieced_content (room : piece.length + 1 ≤ t.data.length) : (t.pieced piece room).content = piece ++ [0] := by
  have length : (piece ++ [(0 : UInt8)]).length = piece.length + 1 := List.length_append
  have copied := take_copyInto (length.trans_le room)
  rwa [length] at copied

def setPiece (tmp : Ptr) (piece : List UInt8) : BytesProg Unit := do
  let t ← load tmp
  if room : piece.length + 1 ≤ t.data.length then update tmp fun _ => t.pieced piece room else fault .dangling

/-- The loop of `bytes_split_iter` and what follows it, with a callback that sees the temporary string
and what `udata` points to. -/
def splitLoop (data delim : List UInt8) (sz : Nat) (cb : MnBytes → S → Int × S) (tmp : Ptr) :
    Nat → Nat → S → BytesProg (Int × S)
  | 0, _, _ => fault .outOfFuel
  | fuel + 1, p0, udata =>
      match strstr data p0 delim with
      | none => fault .dangling
      | some (some p1) => do
          setPiece tmp ((data.drop p0).take (p1 - p0))
          let called := cb (← load tmp) udata
          if called.1 ≠ 0 then return called else splitLoop data delim sz cb tmp fuel (p1 + delim.length) called.2
      | some none =>
          -- a negative size is a huge one
          if p0 + 1 ≤ sz then do
            setPiece tmp ((data.drop p0).take (sz - 1 - p0))
            return cb (← load tmp) udata
          else
            fault .dangling

def bytesSplitIter (system : Allocator MnBytes) (str : Ptr) (delim : List UInt8) (cb : MnBytes → S → Int × S) (udata : S) :
    BytesProg (Int × S) :=
  if delim ≠ [] then do
    let s ← load str
    let tmp ← bytesNew system s.sz
    let called ← splitLoop s.data delim s.sz cb tmp (s.data.length + 1) 0 udata
    bytesDecref tmp
    return called
  else
    pure (0, udata)

/-- A callback is called until it answers something other than zero. -/
def feed (cb : A → S → Int × S) : List A → S → Int × S
  | [], udata => (0, udata)
  | t :: rest, udata => if (cb t udata).1 ≠ 0 then cb t udata else feed cb rest (cb t udata).2

theorem feed_one (cb : A → S → Int × S) (t : A) (udata : S) : feed cb [t] udata = cb t udata := by
  rw [feed]
  split
  · rfl
  next zero => exact Prod.ext (not_not.mp zero).symm rfl

/-- Strings with the pieces of a text, none of which has the delimiter in it. -/
def SplitInto (delim text : List UInt8) (passed : List MnBytes) : Prop :=
  ∃ pieces : List (List UInt8), passed.map MnBytes.content = pieces.map (· ++ [0]) ∧ pieces ≠ [] ∧
    delim.intercalate pieces = text ∧ ∀ piece ∈ pieces, ¬ delim <:+: piece

theorem setPiece_ok (cell : s.heap.lookup a = some t) (room : piece.length + 1 ≤ t.data.length) :
    setPiece (some a) piece s = .ok ((), { s with heap := s.heap.insert a (t.pieced piece room) }) := by
  rw [setPiece, bind_ok (load_ok cell), dif_pos room]
  exact update_ok _ cell

theorem splitInto_one (room : text.length + 1 ≤ t.data.length) (absent : ¬ delim <:+: text) :
    SplitInto delim text [t.pieced text room] := by
  refine ⟨[text], ?_, List.cons_ne_nil _ _, ?_, ?_⟩
  · exact congrArg ([·]) (pieced_content room)
  · exact List.intercalate_singleton
  · intro piece inside
    rwa [List.mem_singleton.mp inside]

theorem SplitInto.cons {rest : List UInt8} {passed : List MnBytes} (room : piece.length + 1 ≤ t.data.length)
    (absent : ¬ delim <:+: piece) (later : SplitInto delim rest passed) :
    SplitInto delim (piece ++ (delim ++ rest)) (t.pieced piece room :: passed) := by
  rcases later with ⟨pieces, contents, filled, joined, without⟩
  refine ⟨piece :: pieces, ?_, List.cons_ne_nil _ _, ?_, ?_⟩
  · rw [List.map_cons, List.map_cons, contents, pieced_content]
  · rw [List.intercalate_cons_of_ne_nil filled, joined, List.append_assoc]
  · exact List.forall_mem_cons.mpr ⟨absent, without⟩

/-- The loop from `p0` on, which passes the same strings to every callback. -/
theorem splitLoop_fed (filled : delim ≠ []) (clean : 0 ∉ text) (ahead : data.drop p0 = text ++ 0 :: behind)
    (size : sz = p0 + text.length + 1) (enough : text.length < fuel) (room : sz ≤ t.data.length) :
    ∃ passed, SplitInto delim text passed ∧ ∀ (cb : MnBytes → S → Int × S) udata s, s.heap.lookup a = some t →
      ∃ next last, splitLoop data delim sz cb (some a) fuel p0 udata s = .ok (feed cb passed udata, next) ∧
        next.heap.lookup a = some last := by
  induction fuel generalizing p0 text t with
  | zero => cases enough
  | succ fuel ih =>
      have found : strstr data p0 delim = _ := strstr_ahead clean ahead
      cases first : firstIn delim text with
      | none =>
          have absent := (firstIn_eq_none filled).mp first
          have fits : text.length + 1 ≤ t.data.length := by omega
          have rest : (data.drop p0).take (sz - 1 - p0) = text := by
            have length : sz - 1 - p0 = text.length := by omega
            rw [ahead, length, List.take_left]
          rw [first] at found
          refine ⟨[t.pieced text fits], splitInto_one fits absent, fun cb udata s cell => ?_⟩
          have cell' := Finmap.lookup_insert (a := a) (b := t.pieced text fits) s.heap
          refine ⟨{ s with heap := s.heap.insert a (t.pieced text fits) }, _, ?_, cell'⟩
          rw [splitLoop, found, feed_one]
          dsimp only [Option.map_none]
          rw [if_pos (by omega), rest, bind_ok (setPiece_ok cell fits), bind_ok (load_ok cell')]
          rfl
      | some i =>
          have parts := split_first filled first
          have inside := OccursAt.fits ((firstIn_eq_some filled).mp first).1 filled
          have positive := List.length_pos_iff.mpr filled
          have short : (text.take i).length = i := List.length_take_of_le (by omega)
          have fits : (text.take i).length + 1 ≤ t.data.length := by omega
          have piece : (data.drop p0).take (p0 + i - p0) = text.take i := by
            rw [ahead, Nat.add_sub_cancel_left, List.take_append_of_le_length (by omega)]
          have beyond : data.drop (p0 + i + delim.length) = text.drop (i + delim.length) ++ 0 :: behind := by
            rw [Nat.add_assoc, ← List.drop_drop, ahead, List.drop_append_of_le_length inside]
          have length : (text.drop (i + delim.length)).length = text.length - (i + delim.length) := List.length_drop
          rw [first] at found
          have later := ih (t := t.pieced (text.take i) fits) (fun within => clean (List.mem_of_mem_drop within)) beyond
            (by omega) (by omega) (by rwa [MnBytes.pieced, length_copyInto])
          rcases later with ⟨passed, split, runs⟩
          have whole := split.cons fits (not_infix_take filled first)
          rw [parts] at whole
          refine ⟨_, whole, fun cb udata s cell => ?_⟩
          have cell' := Finmap.lookup_insert (a := a) (b := t.pieced (text.take i) fits) s.heap
          rw [splitLoop, found, feed]
          dsimp only [Option.map_some]
          rw [piece, bind_ok (setPiece_ok cell fits), bind_ok (load_ok cell'), run_ite]
          split
          next stop => exact ⟨_, _, rfl, cell'⟩
          next on => exact runs cb _ _ cell'

/-- A callback whose answers depend on what has been passed, which it keeps. -/
def recording (answer : List A → A → Int) (t : A) (past : List A) : Int × List A := (answer past t, past ++ [t])

theorem feed_recording_all (answer : List A → A → Int) (past passed : List A)
    (zeros : ∀ front t back, passed = front ++ t :: back → answer (past ++ front) t = 0) :
    feed (recording answer) passed past = (0, past ++ passed) := by
  induction passed generalizing past with
  | nil => rw [feed, List.append_nil]
  | cons t rest ih =>
      have zero := zeros [] t rest rfl
      rw [List.append_nil] at zero
      have on : ¬ (recording answer t past).1 ≠ 0 := not_not.mpr zero
      have later : feed (recording answer) rest (past ++ [t]) = (0, past ++ [t] ++ rest) := by
        apply ih
        intro front u back shape
        rw [List.append_assoc]
        exact zeros (t :: front) u back (congrArg (t :: ·) shape)
      rw [List.append_assoc] at later
      rw [feed, if_neg on]
      exact later

theorem feed_recording_stop (answer : List A → A → Int) (past front : List A) (t : A) (back : List A)
    (zeros : ∀ before u after, front = before ++ u :: after → answer (past ++ before) u = 0)
    (stop : answer (past ++ front) t ≠ 0) :
    feed (recording answer) (front ++ t :: back) past = (answer (past ++ front) t, past ++ front ++ [t]) := by
  induction front generalizing past with
  | nil =>
      rw [List.append_nil] at stop ⊢
      exact if_pos stop
  | cons u front ih =>
      have zero := zeros [] u front rfl
      rw [List.append_nil] at zero
      have on : ¬ (recording answer u past).1 ≠ 0 := not_not.mpr zero
      have same : past ++ u :: front = past ++ [u] ++ front := by rw [List.append_assoc, List.singleton_append]
      have later : feed (recording answer) (front ++ t :: back) (past ++ [u]) =
          (answer (past ++ [u] ++ front) t, past ++ [u] ++ front ++ [t]) := by
        apply ih
        · intro before v after shape
          rw [List.append_assoc]
          exact zeros (u :: before) v after (congrArg (u :: ·) shape)
        · rwa [← same]
      rw [List.cons_append, feed, if_neg on, same]
      exact later

theorem bytesDecref_done (cell : s.heap.lookup a = some t) : ∃ next, bytesDecref (some a) s = .ok ((), next) := by
  have fresh := Finmap.lookup_insert (a := a) (b := { t with nref := t.nref - 1 }) s.heap
  rw [bytesDecref, if_neg nofun, bind_ok (update_ok _ cell), bind_ok (load_ok fresh), run_ite]
  split
  · exact ⟨_, free_ok fresh⟩
  · exact ⟨_, rfl⟩

/-- A string is split without reading or writing anywhere else. -/
theorem bytesSplitIter_fed (system : Allocator MnBytes) (loaded : load p s = .ok (x, s)) (ends : x.content = text ++ [0])
    (clean : 0 ∉ text) (filled : delim ≠ []) :
    ∃ passed, SplitInto delim text passed ∧ ∀ (cb : MnBytes → S → Int × S) udata,
      ∃ next, bytesSplitIter system p delim cb udata s = .ok (feed cb passed udata, next) := by
  have size := size_of_ends ends
  have fits := x.fits
  have ahead : x.data.drop 0 = text ++ 0 :: x.data.drop x.sz := by
    have parts : x.content ++ x.data.drop x.sz = x.data := List.take_append_drop x.sz x.data
    rw [ends, List.append_assoc] at parts
    exact parts.symm
  rcases create_ok system (le_refl x.sz) [] s with ⟨a, middle, made, cell⟩
  have new : bytesNew system x.sz s = .ok (some a, middle) := by
    have positive : decide (0 < x.sz) = true := decide_eq_true (by omega)
    rw [bytesNew, positive, check_bind]
    exact made
  have room : x.sz ≤ (madeOf x.sz x.sz le_rfl [] (system.junk s.tick)).data.length := by
    change x.sz ≤ (copyInto (resized (rounded x.sz) (system.junk s.tick).data) 0 []).length
    rw [length_copyInto, length_resized, rounded]
    exact Nat.le_add_right x.sz _
  have enough : text.length < x.data.length + 1 := by omega
  rcases splitLoop_fed filled clean ahead (by omega) enough room with ⟨passed, split, runs⟩
  refine ⟨passed, split, fun cb udata => ?_⟩
  rcases runs cb udata middle cell with ⟨after, last, looped, there⟩
  rcases bytesDecref_done there with ⟨next, released⟩
  refine ⟨next, ?_⟩
  rw [bytesSplitIter, if_pos filled, bind_ok loaded, bind_ok new, bind_ok looped, bind_ok released]
  rfl

/-- The pieces of a string are passed until the callback stops, and none of it is lost. -/
theorem split_lossless (system : Allocator MnBytes) (loaded : load p s = .ok (x, s)) (ends : x.content = text ++ [0])
    (clean : 0 ∉ text) (filled : delim ≠ []) :
    ∃ passed, SplitInto delim text passed ∧ ∀ answer : List MnBytes → MnBytes → Int,
      ((∀ front t back, passed = front ++ t :: back → answer front t = 0) →
        ∃ next, bytesSplitIter system p delim (recording answer) [] s = .ok ((0, passed), next)) ∧
      ∀ front t back, passed = front ++ t :: back →
        (∀ before u after, front = before ++ u :: after → answer before u = 0) → answer front t ≠ 0 →
          ∃ next, bytesSplitIter system p delim (recording answer) [] s = .ok ((answer front t, front ++ [t]), next) := by
  rcases bytesSplitIter_fed system loaded ends clean filled with ⟨passed, split, runs⟩
  refine ⟨passed, split, fun answer => ⟨?_, ?_⟩⟩
  · intro zeros
    have all := feed_recording_all answer [] passed zeros
    rcases runs (recording answer) [] with ⟨next, ran⟩
    exact ⟨next, by rw [ran, all]; rfl⟩
  · intro front t back shape zeros stop
    have part := feed_recording_stop answer [] front t back zeros stop
    rcases runs (recording answer) [] with ⟨next, ran⟩
    exact ⟨next, by rw [ran, shape, part]; rfl⟩

/-- "a,b" and a comma. -/
def letters : MnBytes := ⟨1, 4, 0, [97, 44, 98, 0], le_rfl⟩

theorem split_lossless_letters :
    ∃ passed, SplitInto [44] [97, 44, 98] passed ∧ ∀ answer : List MnBytes → MnBytes → Int,
      ((∀ front t back, passed = front ++ t :: back → answer front t = 0) →
        ∃ next, bytesSplitIter (Allocator.bump letters) (some 1) [44] (recording answer) [] (holding letters) =
          .ok ((0, passed), next)) ∧
      ∀ front t back, passed = front ++ t :: back →
        (∀ before u after, front = before ++ u :: after → answer before u = 0) → answer front t ≠ 0 →
          ∃ next, bytesSplitIter (Allocator.bump letters) (some 1) [44] (recording answer) [] (holding letters) =
            .ok ((answer front t, front ++ [t]), next) := by
  have loaded : load (some 1) (holding letters) = .ok (letters, holding letters) := rfl
  exact split_lossless (Allocator.bump letters) loaded rfl (by decide) (by decide)

end MnCommon.ByteStrings
