import MnCommon.ByteStrings.Model
import MnCommon.Memory.Heap

/-! The functions of `bytes.c` on strings in memory. -/

namespace MnCommon.ByteStrings

open Memory Bytes

abbrev BytesStore := Store MnBytes Unit

abbrev BytesProg := Prog MnBytes Unit

/-- A store with one string. -/
def holding (x : MnBytes) : BytesStore where
  heap := Finmap.singleton 1 x
  vars := ()
  tick := 0

/-- How many bytes are allocated for a size. -/
def rounded (sz : Nat) : Nat := sz + (8 - sz % 8)

/-- What lies in memory that is handed out. -/
def resized (sz : Nat) (junk : List UInt8) : List UInt8 := (List.range sz).map fun i => junk.getD i 0

/-- A string of `sz` bytes in an allocation for `room` bytes. -/
def madeOf (room sz : Nat) (enough : sz ≤ room) (bytes : List UInt8) (junk : MnBytes) : MnBytes where
  nref := 0
  sz := sz
  hash := 0
  data := copyInto (resized (rounded room) junk.data) 0 bytes
  fits := by
    rw [length_copyInto, resized, List.length_map, List.length_range, rounded]
    exact enough.trans (Nat.le_add_right room _)

theorem length_escaped (ch : UInt8) : (escaped ch).length ≤ 2 := by
  rw [escaped]
  split_ifs <;> exact Nat.le_of_ble_eq_true rfl

theorem length_flatMap_escaped (bytes : List UInt8) : (bytes.flatMap escaped).length ≤ bytes.length * 2 := by
  induction bytes with
  | nil => exact Nat.le_refl 0
  | cons ch rest ih =>
      have one := length_escaped ch
      rw [List.flatMap_cons, List.length_append, List.length_cons]
      omega

/-- The new contents of `dst` in `bytes_copy`. -/
def copied (dst src : MnBytes) (off : Nat) : Except Fault MnBytes :=
  if (off + src.sz) % 2 ^ 64 ≤ dst.sz then
    if off + src.sz ≤ dst.data.length then .ok (dst.overwritten src.content off) else .error .dangling
  else
    .error .assertion

/-- The same in `bytes_copyz`, which replaces the last byte by a NUL. -/
def copiedz (dst src : MnBytes) (off : Nat) : Except Fault MnBytes :=
  if (off + src.sz + 2 ^ 64 - 1) % 2 ^ 64 ≤ dst.sz then
    if 0 < src.sz ∧ off + src.sz ≤ dst.data.length then
      .ok (dst.overwritten (src.content.dropLast ++ [0]) off)
    else
      .error .dangling
  else
    .error .assertion

/-- The sign of the answer of the C function. -/
def memcmp : List UInt8 → List UInt8 → Int
  | x :: xs, y :: ys => if x = y then memcmp xs ys else if x < y then -1 else 1
  | _, _ => 0

variable (system : Allocator MnBytes)

/-- The allocation of a string and what is written to it; with `mpool_malloc` it is the same. -/
def create (room sz : Nat) (enough : sz ≤ room) (bytes : List UInt8) : BytesProg Ptr := do
  let res ← alloc system
  update res (madeOf room sz enough bytes)
  return res

theorem create_ok (system : Allocator MnBytes) {room sz : Nat} (enough : sz ≤ room) (bytes : List UInt8)
    (s : BytesStore) :
    ∃ a next, create system room sz enough bytes s = .ok (some a, next) ∧
      next.heap.lookup a = some (madeOf room sz enough bytes (system.junk s.tick)) := by
  have fresh : (s.heap.insert (system.pick s.tick s.heap.keys) (system.junk s.tick)).lookup
      (system.pick s.tick s.heap.keys) = some (system.junk s.tick) := Finmap.lookup_insert _
  have handed : alloc system s = .ok (some (system.pick s.tick s.heap.keys), _) := rfl
  have ran : create system room sz enough bytes s = _ := (bind_ok handed _).trans (bind_ok (update_ok _ fresh) _)
  exact ⟨_, _, ran, Finmap.lookup_insert _⟩

theorem length_resized (sz : Nat) (junk : List UInt8) : (resized (rounded sz) junk).length = rounded sz := by
  rw [resized, List.length_map, List.length_range]

theorem madeOf_content {room sz : Nat} (enough : sz ≤ room) {bytes : List UInt8} (size : bytes.length = sz)
    (junk : MnBytes) : (madeOf room sz enough bytes junk).content = bytes := by
  subst size
  apply take_copyInto
  rw [length_resized, rounded]
  exact enough.trans (Nat.le_add_right room _)

def bytesNew (sz : Nat) : BytesProg Ptr := do
  check (0 < sz)
  create system sz sz le_rfl []

def bytesNewFromStr (s : List UInt8) : BytesProg Ptr :=
  create system (s.length + 1) (s.length + 1) le_rfl (s ++ [0])

def bytesNewFromBytes (s : Ptr) : BytesProg Ptr := do
  let s ← load s
  check (0 < s.sz)
  create system s.sz s.sz le_rfl s.content

/-- `memcpy` reads the byte that the NUL is written to as well. -/
def bytesNewFromStrLen (s : List UInt8) (sz : Nat) : BytesProg Ptr :=
  if sz + 1 ≤ s.length then create system (sz + 1) (sz + 1) le_rfl (putNul (sz + 1) (s.take (sz + 1)))
  else fault .dangling

def bytesNewFromBufLen (s : List UInt8) (sz : Nat) : BytesProg Ptr :=
  if sz ≤ s.length then create system sz sz le_rfl (putNul sz (s.take sz)) else fault .dangling

def bytesNewFromMemLen (s : List UInt8) (sz : Nat) : BytesProg Ptr :=
  if sz ≤ s.length then create system sz sz le_rfl (s.take sz) else fault .dangling

/-- `BYTES_INITIALIZER` and its variants, which give the count of references. -/
def bytesInitializer (nref : Int) (s : List UInt8) : BytesProg Ptr := do
  let res ← alloc system
  update res fun _ => ⟨nref, s.length + 1, 0, s ++ [0], by rw [List.length_append, List.length_singleton]⟩
  return res

/-- `text` is what `vsnprintf` makes of the arguments, if it does not fail. -/
def bytesPrintf (text : Option (List UInt8)) : BytesProg Ptr :=
  match text with
  | some text => create system (text.length + 1) (text.length + 1) le_rfl (text ++ [0])
  | none => bytesNew system 0

def bytesJsonEscape (src : Ptr) : BytesProg Ptr := do
  let s ← load src
  check (0 < s.sz * 2)
  let out := s.content.flatMap escaped
  create system (s.sz * 2) out.length
    (by
      have short := length_flatMap_escaped s.content
      rwa [length_content] at short)
    (putNul out.length out)

def bytesIncref (s : Ptr) : BytesProg Unit := update s fun s => { s with nref := s.nref + 1 }

def bytesDecref (s : Ptr) : BytesProg Unit :=
  if s = none then
    pure ()
  else do
    update s fun s => { s with nref := s.nref - 1 }
    let now ← load s
    if now.nref ≤ 0 then free s else return ()

/-- The NUL is put behind what is encoded, which has the size that is reckoned here. -/
def bytesBase64EncodeUrlStr (s : Ptr) : BytesProg Ptr := do
  let s ← load s
  if s.sz = 0 then
    return none
  else
    let sz0 := s.sz - 1
    let m := sz0 % 3
    let sz1 := (sz0 + if m ≠ 0 then 3 - m else 0) * 4 / 3
    match mnbase64EncodeUrlStd (s.content.take sz0) sz1 with
    | none => do
        let res ← bytesNew system (sz1 + 1)
        bytesDecref res
        return none
    | some out => create system (sz1 + 1) (sz1 + 1) le_rfl (out ++ [0])

def bytesMemsetzCall (s : Ptr) (c : UInt8) : BytesProg Unit := do
  let now ← load s
  if now.sz = 0 then fault .dangling else update s (bytesMemsetz c)

/-- The index of `urlencode_reserved`, an `unsigned`, does not get to a size beyond its
range. -/
def urlencodeInto (dst : Ptr) (bytes : List UInt8) : BytesProg Unit := do
  let d ← load dst
  if room : 3 * bytes.length + 1 ≤ d.sz then
    if bytes.length < 2 ^ 32 then update dst fun _ => d.urlencodeReserved bytes room else fault .outOfFuel
  else
    fault .assertion

def bytesUrlencode2 (dst src : Ptr) : BytesProg Unit := do
  let s ← load src
  urlencodeInto dst s.content

/-- Without the last byte; the size of an empty string is beyond all indices then. -/
def bytesStrUrlencode2 (dst src : Ptr) : BytesProg Unit := do
  let d ← load dst
  let s ← load src
  check (s.sz * 3 + 1 ≤ d.sz)
  if s.sz = 0 then fault .outOfFuel else urlencodeInto dst s.content.dropLast

/-- The two copies; `how` makes the new contents of `dst`. -/
def copyWith (how : MnBytes → MnBytes → Nat → Except Fault MnBytes) (dst src : Ptr) (off : Nat) : BytesProg Unit := do
  let d ← load dst
  let s ← load src
  match how d s off with
  | .ok after => update dst fun _ => after
  | .error kind => fault kind

def bytesCopy (dst src : Ptr) (off : Nat) : BytesProg Unit := copyWith copied dst src off

def bytesCopyz (dst src : Ptr) (off : Nat) : BytesProg Unit := copyWith copiedz dst src off

def bytesHash (bytes : Ptr) : BytesProg UInt64 := do
  let s ← load bytes
  if s.hash = 0 then
    update bytes fun s => { s with hash := fasthash 0 s.content }
    return (← load bytes).hash
  else
    return s.hash

def bytesBase64DecodeUrl (s : Ptr) : BytesProg Int := do
  let before ← load s
  update s MnBytes.base64Decoded
  let _ ← bytesHash s
  return if before.sz = 0 then -1 else (mnbase64DecodeUrlStdInplace before.data (before.sz - 1)).1

def bytesCmp (a b : Ptr) : BytesProg Int := do
  let ha ← bytesHash a
  let hb ← bytesHash b
  let diff := (ha - hb).toInt64
  if diff = 0 then
    let x ← load a
    let y ← load b
    if x.sz = y.sz then return memcmp x.content y.content
    else return if y.sz < x.sz then 1 else -1
  else
    return if 0 < diff then 1 else -1

inductive BytesOp where
  | new (sz : Nat)
  | newFromStr (s : List UInt8)
  | newFromBytes (s : Ptr)
  | newFromStrLen (s : List UInt8) (sz : Nat)
  | newFromBufLen (s : List UInt8) (sz : Nat)
  | newFromMemLen (s : List UInt8) (sz : Nat)
  | initializer (nref : Int) (s : List UInt8)
  | printf (text : Option (List UInt8))
  | jsonEscape (src : Ptr)
  | base64EncodeUrlStr (s : Ptr)
  | incref (s : Ptr)
  | decref (s : Ptr)
  | jsonUnescape (s : Ptr)
  | tr (s : Ptr) (pairs : List (UInt8 × UInt8))
  | setLower (s : Ptr)
  | setUpper (s : Ptr)
  | memset (s : Ptr) (c : UInt8)
  | memsetz (s : Ptr) (c : UInt8)
  | urldecode (s : Ptr)
  | urlencode2 (dst src : Ptr)
  | strUrlencode2 (dst src : Ptr)
  | rstripBlanks (s : Ptr)
  | brushdown (s : Ptr)
  | base64DecodeUrl (s : Ptr)
  | copy (dst src : Ptr) (off : Nat)
  | copyz (dst src : Ptr) (off : Nat)
  | hash (s : Ptr)
  | cmp (a b : Ptr)

inductive BytesAnswer where
  | done
  | string (p : Ptr)
  | hash (h : UInt64)
  | code (res : Int)
  deriving DecidableEq, Repr

def bytesStep (op : BytesOp) : BytesProg BytesAnswer :=
  match op with
  | .new sz => .string <$> bytesNew system sz
  | .newFromStr s => .string <$> bytesNewFromStr system s
  | .newFromBytes s => .string <$> bytesNewFromBytes system s
  | .newFromStrLen s sz => .string <$> bytesNewFromStrLen system s sz
  | .newFromBufLen s sz => .string <$> bytesNewFromBufLen system s sz
  | .newFromMemLen s sz => .string <$> bytesNewFromMemLen system s sz
  | .initializer nref s => .string <$> bytesInitializer system nref s
  | .printf text => .string <$> bytesPrintf system text
  | .jsonEscape src => .string <$> bytesJsonEscape system src
  | .base64EncodeUrlStr s => .string <$> bytesBase64EncodeUrlStr system s
  | .incref s => (fun () => .done) <$> bytesIncref s
  | .decref s => (fun () => .done) <$> bytesDecref s
  | .jsonUnescape s => (fun () => .done) <$> update s bytesJsonUnescape
  | .tr s pairs => (fun () => .done) <$> update s (bytesTr pairs)
  | .setLower s => (fun () => .done) <$> update s bytesSetLower
  | .setUpper s => (fun () => .done) <$> update s bytesSetUpper
  | .memset s c => (fun () => .done) <$> update s (bytesMemset c)
  | .memsetz s c => (fun () => .done) <$> bytesMemsetzCall s c
  | .urldecode s => (fun () => .done) <$> update s bytesUrldecode
  | .urlencode2 dst src => (fun () => .done) <$> bytesUrlencode2 dst src
  | .strUrlencode2 dst src => (fun () => .done) <$> bytesStrUrlencode2 dst src
  | .rstripBlanks s => (fun () => .done) <$> update s bytesRstripBlanks
  | .brushdown s => (fun () => .done) <$> update s bytesBrushdown
  | .base64DecodeUrl s => .code <$> bytesBase64DecodeUrl s
  | .copy dst src off => (fun () => .done) <$> bytesCopy dst src off
  | .copyz dst src off => (fun () => .done) <$> bytesCopyz dst src off
  | .hash s => .hash <$> bytesHash s
  | .cmp a b => .code <$> bytesCmp a b

end MnCommon.ByteStrings
