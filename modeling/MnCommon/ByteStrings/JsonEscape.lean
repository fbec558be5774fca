import MnCommon.ByteStrings.Cache

/-! The loops of `bytes_json_escape` and `bytes_json_unescape` over their indices, and that the
second one undoes the first one. -/

namespace MnCommon.ByteStrings

open Memory Bytes

/-- The bytes for one character are stored one by one, the first of them at `j`. Only `room` bytes
have been asked for. -/
def store (room : Nat) : Nat → List UInt8 → List UInt8 → Except Fault (List UInt8)
  | _, [], dest => .ok dest
  | j, c :: rest, dest => if j < room then store room (j + 1) rest (dest.set j c) else .error .dangling

/-- The loop of `bytes_json_escape` for the bytes that are left from the index `i` on. -/
def escapeLoop (room : Nat) (data : List UInt8) : Nat → Nat → Nat → List UInt8 → Except Fault (Nat × List UInt8)
  | 0, _, j, dest => .ok (j, dest)
  | left + 1, i, j, dest => do
      let dest ← store room j (escaped (data.getD i 0)) dest
      escapeLoop room data left (i + 1) (j + (escaped (data.getD i 0)).length) dest

/-- What `bytes_json_escape` leaves as the size and in the memory of `dest`. -/
def escapeInto (data : List UInt8) (sz : Nat) (dest : List UInt8) : Except Fault (Nat × List UInt8) := do
  let (j, dest) ← escapeLoop (sz * 2) data sz 0 0 dest
  return (j, putNul j dest)

/-- The loop of `bytes_json_unescape`, which reads and writes the same memory. -/
def unescapeIndices (sz : Nat) : Nat → Nat → Nat → List UInt8 → Nat × List UInt8
  | 0, _, j, data => (j, data)
  | fuel + 1, i, j, data =>
      if i < sz then
        if data.getD i 0 = 92 then
          if i + 1 < sz then
            unescapeIndices sz fuel (i + 2) (j + 1) (data.set j (unescaped (data.getD (i + 1) 0)))
          else
            (j, data)
        else
          unescapeIndices sz fuel (i + 1) (j + 1) (data.set j (data.getD i 0))
      else
        (j, data)

/-- What `bytes_json_unescape` leaves as the size and in the memory. -/
def unescapeInPlace (data : List UInt8) (sz : Nat) : Nat × List UInt8 :=
  let (j, data) := unescapeIndices sz sz 0 0 data
  (j, putNul j data)

variable {system : Allocator MnBytes} {s : BytesStore} {x e : MnBytes} {p : Ptr}
  {data dest bytes rest behind : List UInt8} {room i j sz fuel : Nat}

theorem store_ok (fits : j + bytes.length ≤ room) : store room j bytes dest = .ok (copyInto dest j bytes) := by
  induction bytes generalizing j dest with
  | nil => rfl
  | cons c rest ih =>
      rw [List.length_cons] at fits
      rw [store, if_pos (by omega), ih (by omega), copyInto]

/-- Two bytes for each that is left are enough. -/
theorem escapeLoop_ok (rest : List UInt8) (ahead : data.drop i = rest ++ behind) (fits : j + rest.length * 2 ≤ room) :
    escapeLoop room data rest.length i j dest =
      .ok (j + (rest.flatMap escaped).length, copyInto dest j (rest.flatMap escaped)) := by
  induction rest generalizing i j dest with
  | nil => rfl
  | cons c rest ih =>
      have now := getD_of_drop ahead
      have two := length_escaped c
      rw [List.length_cons] at fits
      have written : store room j (escaped c) dest = .ok (copyInto dest j (escaped c)) := store_ok (by omega)
      have later : escapeLoop room data rest.length (i + 1) (j + (escaped c).length)
          (copyInto dest j (escaped c)) = _ := ih (drop_succ ahead) (by omega)
      rw [List.length_cons, escapeLoop, now, written]
      change escapeLoop room data rest.length (i + 1) (j + (escaped c).length) (copyInto dest j (escaped c)) = _
      rw [later, List.flatMap_cons, List.length_append, copyInto_append, Nat.add_assoc]

/-- One character that is no backslash, which is read before it may be written over. -/
theorem unescapeIndices_plain {c : UInt8} (ahead : data.drop i = c :: rest) (plain : c ≠ 92) (inside : i < sz) :
    unescapeIndices sz (fuel + 1) i j data = unescapeIndices sz fuel (i + 1) (j + 1) (data.set j c) := by
  rw [unescapeIndices, if_pos inside, getD_of_drop ahead, if_neg plain]

theorem unescapeIndices_escape {c : UInt8} (ahead : data.drop i = 92 :: c :: rest) (inside : i + 1 < sz) :
    unescapeIndices sz (fuel + 1) i j data = unescapeIndices sz fuel (i + 2) (j + 1) (data.set j (unescaped c)) := by
  rw [unescapeIndices, if_pos (Nat.lt_of_succ_lt inside), getD_of_drop ahead, if_pos rfl, if_pos inside,
    getD_of_drop (drop_succ ahead)]

/-- The memory behind `j` is still what it was. -/
theorem unescapeIndices_eq (rest : List UInt8) (ahead : data.drop i = rest ++ behind) (size : sz = i + rest.length)
    (enough : rest.length ≤ fuel) (order : j ≤ i) :
    unescapeIndices sz fuel i j data = (j + (unescapeLoop rest).length, copyInto data j (unescapeLoop rest)) := by
  induction rest using unescapeLoop.induct generalizing i j data fuel with
  | case1 =>
      cases fuel with
      | zero => rfl
      | succ fuel =>
          rw [unescapeIndices, if_neg (size ▸ Nat.lt_irrefl i)]
          rfl
  | case2 =>
      cases fuel with
      | zero => exact absurd enough (Nat.not_succ_le_zero _)
      | succ fuel =>
          have inside : i < sz := size ▸ Nat.lt_succ_self i
          have last : ¬ i + 1 < sz := size ▸ Nat.lt_irrefl (i + 1)
          rw [unescapeIndices, if_pos inside, getD_of_drop ahead, if_pos rfl, if_neg last]
          rfl
  | case3 ch rest ih =>
      cases fuel with
      | zero => exact absurd enough (Nat.not_succ_le_zero _)
      | succ fuel =>
          rw [List.length_cons, List.length_cons] at size enough
          have before : j < i + 2 := by omega
          have kept : (data.set j (unescaped ch)).drop (i + 2) = _ :=
            (List.drop_set_of_lt before).trans (drop_succ (drop_succ ahead))
          have later : unescapeIndices sz fuel (i + 2) (j + 1) (data.set j (unescaped ch)) = _ :=
            ih kept (by omega) (by omega) (by omega)
          rw [unescapeIndices_escape ahead (by omega), later, unescapeLoop, List.length_cons, Nat.add_assoc j,
            Nat.add_comm 1]
          rfl
  | case4 ch rest lone pair ih =>
      have plain : ch ≠ 92 := by
        intro slash
        cases rest with
        | nil => exact lone slash rfl
        | cons c rest => exact pair c rest slash rfl
      cases fuel with
      | zero => exact absurd enough (Nat.not_succ_le_zero _)
      | succ fuel =>
          rw [List.length_cons] at size enough
          have before : j < i + 1 := by omega
          have kept : (data.set j ch).drop (i + 1) = _ := (List.drop_set_of_lt before).trans (drop_succ ahead)
          have later : unescapeIndices sz fuel (i + 1) (j + 1) (data.set j ch) = _ :=
            ih kept (by omega) (by omega) (by omega)
          rw [unescapeIndices_plain ahead plain (by omega), later, unescapeLoop_plain plain, List.length_cons,
            Nat.add_assoc j, Nat.add_comm 1]
          rfl

/-- In place, the two indices do what `bytes_json_unescape` does to the bytes as a whole. -/
theorem unescapeInPlace_eq (e : MnBytes) :
    unescapeInPlace e.data e.sz = ((ByteStrings.bytesJsonUnescape e).sz, (ByteStrings.bytesJsonUnescape e).data) := by
  have ahead : e.data.drop 0 = e.content ++ e.data.drop e.sz := (List.take_append_drop e.sz e.data).symm
  have length := length_content e
  have looped : unescapeIndices e.sz e.sz 0 0 e.data = _ :=
    unescapeIndices_eq e.content ahead (by omega) (by omega) (Nat.le_refl 0)
  rw [unescapeInPlace, looped, Nat.zero_add]
  rfl

theorem putNul_ended (front : List UInt8) : putNul (front ++ [0]).length (front ++ [0]) = front ++ [0] := by
  rw [List.length_append, List.length_singleton, putNul, if_neg (Nat.succ_ne_zero _), Nat.add_sub_cancel,
    List.set_append_right _ _ (Nat.le_refl _), Nat.sub_self]
  rfl

theorem bytesJsonUnescape_escaped (content : e.content = bytes.flatMap escaped ++ [0]) :
    (ByteStrings.bytesJsonUnescape e).sz = bytes.length + 1 ∧
      (ByteStrings.bytesJsonUnescape e).content = bytes ++ [0] := by
  have out : unescapeLoop e.content = bytes ++ [0] := by
    rw [content, unescapeLoop_flatMap]
    rfl
  have size : (unescapeLoop e.content).length = bytes.length + 1 := by
    rw [out, List.length_append, List.length_singleton]
  have short := length_unescapeLoop e.content
  have fits := e.fits
  rw [length_content] at short
  refine ⟨size, ?_⟩
  change (putNul (unescapeLoop e.content).length (copyInto e.data 0 (unescapeLoop e.content))).take
    (unescapeLoop e.content).length = _
  rw [size, out]
  exact take_putNul (by omega)

theorem escapeInto_ok (content : x.content = bytes ++ [0]) (large : x.sz * 2 ≤ dest.length) :
    escapeInto x.data x.sz dest =
      .ok ((bytes.flatMap escaped).length + 1, copyInto dest 0 (bytes.flatMap escaped ++ [0])) := by
  have size : x.sz = (bytes ++ [0]).length := by rw [← content, length_content]
  have ahead : x.data.drop 0 = (bytes ++ [0]) ++ x.data.drop x.sz := by
    rw [← content]
    exact (List.take_append_drop x.sz x.data).symm
  have short := length_flatMap_escaped (bytes ++ [0])
  have ended : (bytes ++ [0]).flatMap escaped = bytes.flatMap escaped ++ [0] := List.flatMap_append
  have looped : escapeLoop (x.sz * 2) x.data (bytes ++ [0]).length 0 0 dest = _ :=
    escapeLoop_ok (bytes ++ [0]) ahead (by omega)
  rw [ended, List.length_append, List.length_singleton] at short
  rw [← size, ended, Nat.zero_add, List.length_append, List.length_singleton] at looped
  rw [escapeInto, looped]
  change Except.ok (_, putNul _ (copyInto dest 0 _)) = _
  rw [putNul_copyInto (by omega)]

/-- A string that ends with a NUL, whatever other bytes it has. -/
theorem json_unescape_escape (system : Allocator MnBytes) (loaded : load p s = .ok (x, s))
    (ends : x.content = bytes ++ [0]) :
    ∃ a next e, bytesJsonEscape system p s = .ok (some a, next) ∧ next.heap.lookup a = some e ∧
      escapeInto x.data x.sz (resized (rounded (x.sz * 2)) (system.junk s.tick).data) = .ok (e.sz, e.data) ∧
      e.sz ≤ x.sz * 2 ∧
      unescapeInPlace e.data e.sz = ((ByteStrings.bytesJsonUnescape e).sz, (ByteStrings.bytesJsonUnescape e).data) ∧
      (ByteStrings.bytesJsonUnescape e).sz = x.sz ∧ (ByteStrings.bytesJsonUnescape e).content = x.content := by
  have size := size_of_ends ends
  have out : x.content.flatMap escaped = bytes.flatMap escaped ++ [0] := by
    rw [ends]
    exact List.flatMap_append
  have short := length_flatMap_escaped x.content
  rw [length_content] at short
  have nul : putNul (x.content.flatMap escaped).length (x.content.flatMap escaped) = x.content.flatMap escaped := by
    rw [out]
    exact putNul_ended _
  rcases create_ok system short (x.content.flatMap escaped) s with ⟨a, next, created, cell⟩
  have ran : bytesJsonEscape system p s = .ok (some a, next) := by
    have some : decide (0 < x.sz * 2) = true := decide_eq_true (by omega)
    rw [bytesJsonEscape, bind_ok loaded, some, check_bind, nul]
    exact created
  have large : x.sz * 2 ≤ (resized (rounded (x.sz * 2)) (system.junk s.tick).data).length := by
    rw [length_resized, rounded]
    exact Nat.le_add_right _ _
  have length : (x.content.flatMap escaped).length = (bytes.flatMap escaped).length + 1 := by
    rw [out, List.length_append, List.length_singleton]
  have content := madeOf_content short rfl (system.junk s.tick)
  have restored := bytesJsonUnescape_escaped (content.trans out)
  refine ⟨a, next, _, ran, cell, ?_, short, unescapeInPlace_eq _, restored.1.trans size.symm,
    restored.2.trans ends.symm⟩
  rw [escapeInto_ok ends large, ← length, ← out]
  rfl

theorem json_unescape_escape_slash :
    ∃ a next e, bytesJsonEscape (Allocator.bump ⟨0, 0, 0, [], le_rfl⟩) (some 1)
        (holding ⟨1, 3, 0, [92, 0, 0], le_rfl⟩) = .ok (some a, next) ∧ next.heap.lookup a = some e ∧
      escapeInto [92, 0, 0] 3 (resized (rounded (3 * 2)) []) = .ok (e.sz, e.data) ∧ e.sz ≤ 3 * 2 ∧
      unescapeInPlace e.data e.sz = ((ByteStrings.bytesJsonUnescape e).sz, (ByteStrings.bytesJsonUnescape e).data) ∧
      (ByteStrings.bytesJsonUnescape e).sz = 3 ∧ (ByteStrings.bytesJsonUnescape e).content = [92, 0, 0] := by
  have loaded : load (some 1) (holding ⟨1, 3, 0, [92, 0, 0], le_rfl⟩) =
      .ok (⟨1, 3, 0, [92, 0, 0], le_rfl⟩, _) := rfl
  have ends : (⟨1, 3, 0, [92, 0, 0], le_rfl⟩ : MnBytes).content = [92, 0] ++ [0] := rfl
  exact json_unescape_escape _ loaded ends

end MnCommon.ByteStrings
