import MnCommon.ByteStrings.Calls
import MnCommon.Memory.Records
import MnCommon.Memory.Run

/-! The hash that a string remembers. -/

namespace MnCommon.ByteStrings

open Memory Bytes

/-- What a string remembers is nothing or the hash of its bytes. -/
def Remembers (s : MnBytes) : Prop := s.hash = 0 ∨ s.hash = fasthash 0 s.content

def Cached (s : BytesStore) : Prop := AllRecords Remembers s

/-- `bytes_cmp` tells whether two strings are the same. -/
def Compares (op : BytesOp) (s : BytesStore) (answer : BytesAnswer) : Prop :=
  match op with
  | .cmp a b => ∀ x y, load a s = .ok (x, s) → load b s = .ok (y, s) →
      (answer = .code 0 ↔ x.sz = y.sz ∧ x.content = y.content)
  | _ => True

/-- After the call all strings remember nothing wrong, and an answer of `bytes_cmp` is right. -/
def Truthful (system : Allocator MnBytes) (op : BytesOp) (s : BytesStore) : Prop :=
  ∀ answer next, bytesStep system op s = .ok (answer, next) → Cached next ∧ Compares op s answer

/-- The string has not been hashed since it was last changed, or its new bytes have the
same hash. -/
def Settled (before after : MnBytes) : Prop :=
  before.hash = 0 ∨ fasthash 0 after.content = fasthash 0 before.content

def SettledCopy (how : MnBytes → MnBytes → Nat → Except Fault MnBytes) (dst src : Ptr) (off : Nat) (s : BytesStore) :
    Prop :=
  ∀ d x after, load dst s = .ok (d, s) → load src s = .ok (x, s) → how d x off = .ok after → Settled d after

/-- The condition under which a call leaves no wrong hash. -/
def Unstale (op : BytesOp) (s : BytesStore) : Prop :=
  match op with
  | .copy dst src off => SettledCopy copied dst src off s
  | .copyz dst src off => SettledCopy copiedz dst src off s
  | .base64DecodeUrl p => ∀ d, load p s = .ok (d, s) → Settled d d.base64Decoded
  | _ => True

variable {system : Allocator MnBytes} {s next : BytesStore} {x y : MnBytes} {a b : Addr}

theorem remembers_of_reset (reset : x.hash = 0) : Remembers x := .inl reset

/-- What `bytes_hash` answers. -/
def MnBytes.hashed (s : MnBytes) : UInt64 := if s.hash = 0 then fasthash 0 s.content else s.hash

theorem hashed_eq (remembers : Remembers x) : x.hashed = fasthash 0 x.content := by
  rw [MnBytes.hashed]
  split
  · rfl
  next filled => exact remembers.resolve_left filled

theorem remembers_hashed (remembers : Remembers x) : Remembers { x with hash := x.hashed } :=
  .inr (hashed_eq remembers)

theorem bytesHash_ok (cell : s.heap.lookup a = some x) :
    bytesHash (some a) s = .ok (x.hashed, { s with heap := s.heap.insert a { x with hash := x.hashed } }) := by
  rw [bytesHash, bind_ok (load_ok cell), run_ite, MnBytes.hashed]
  split
  next empty =>
    rw [bind_ok (update_ok _ cell), bind_ok (load_ok (Finmap.lookup_insert _))]
    rfl
  next filled =>
    have same : s.heap.insert a { x with hash := x.hash } = s.heap := by
      apply Finmap.ext_lookup
      intro c
      by_cases here : c = a
      · rw [here, Finmap.lookup_insert, cell]
      · rw [Finmap.lookup_insert_of_ne _ here]
    rw [same]
    rfl

theorem keeps_bytesHash (p : Ptr) : Keeps Remembers (fun _ => True) (bytesHash p) := by
  intro s all h next ran
  cases p with
  | none => cases ran
  | some a =>
      rcases of_run_bind ran with ⟨x, middle, loaded, -⟩
      rcases of_run_load loaded with ⟨-, a, same, cell⟩
      cases same
      rw [bytesHash_ok cell] at ran
      cases ran
      exact ⟨allRecords_insert all _ (remembers_hashed (all _ x cell)) s.tick, trivial⟩

theorem keeps_bytesCmp (a b : Ptr) : Keeps Remembers (fun _ => True) (bytesCmp a b) := by
  apply (keeps_bytesHash a).bind
  intro ha _
  apply (keeps_bytesHash b).bind
  intro hb _
  apply keeps_ite
  · intro _
    apply (keeps_load a).bind
    intro x _
    apply (keeps_load b).bind
    intro y _
    apply keeps_ite
    · exact fun _ => keeps_pure trivial
    · exact fun _ => keeps_pure trivial
  · exact fun _ => keeps_pure trivial

theorem memcmp_eq_zero {xs ys : List UInt8} (lengths : xs.length = ys.length) : memcmp xs ys = 0 ↔ xs = ys := by
  induction xs generalizing ys with
  | nil =>
      obtain rfl : ys = [] := List.length_eq_zero_iff.mp lengths.symm
      simp only [memcmp]
  | cons x xs ih =>
      cases ys with
      | nil => cases lengths
      | cons y ys =>
          rw [memcmp, List.cons.injEq]
          by_cases same : x = y
          · rw [if_pos same, ih (Nat.succ.inj lengths), and_iff_right same]
          · rw [if_neg same]
            constructor
            · intro zero
              split at zero
              · cases zero
              · cases zero
            · exact fun both => absurd both.1 same

theorem toInt64_sub_eq_zero (u v : UInt64) : (u - v).toInt64 = 0 ↔ u = v := by
  constructor
  · intro zero
    have difference : u - v = 0 := congrArg Int64.toUInt64 zero
    rw [← UInt64.sub_add_cancel u v, difference, UInt64.zero_add]
  · intro same
    rw [same, UInt64.sub_self]
    rfl

/-- The strings have the same bytes as before. -/
def SameBytes (s next : BytesStore) : Prop :=
  ∀ a x, s.heap.lookup a = some x → ∃ y, next.heap.lookup a = some y ∧ y.sz = x.sz ∧ y.content = x.content

theorem bytesHash_right (cached : Cached s) (cell : s.heap.lookup a = some x) :
    ∃ next, bytesHash (some a) s = .ok (fasthash 0 x.content, next) ∧ Cached next ∧ SameBytes s next := by
  have remembers := cached a x cell
  refine ⟨_, hashed_eq remembers ▸ bytesHash_ok cell,
    allRecords_insert cached a (remembers_hashed remembers) s.tick, fun b y there => ?_⟩
  by_cases same : b = a
  · rw [same] at there ⊢
    cases cell.symm.trans there
    exact ⟨_, Finmap.lookup_insert _, rfl, rfl⟩
  · exact ⟨y, (Finmap.lookup_insert_of_ne _ same).trans there, rfl, rfl⟩

/-- The answer of `bytes_cmp` for two strings, if they remember nothing wrong. -/
def compared (x y : MnBytes) : Int :=
  let diff := (fasthash 0 x.content - fasthash 0 y.content).toInt64
  if diff = 0 then
    if x.sz = y.sz then memcmp x.content y.content else if y.sz < x.sz then 1 else -1
  else if 0 < diff then 1
  else -1

/-- The comparison of two strings, which may be the same one. -/
theorem bytesCmp_ok (cached : Cached s) (here : s.heap.lookup a = some x) (there : s.heap.lookup b = some y) :
    ∃ next, bytesCmp (some a) (some b) s = .ok (compared x y, next) := by
  rcases bytesHash_right cached here with ⟨middle, first, between, same⟩
  rcases same b y there with ⟨y', cell, size, bytes⟩
  rcases bytesHash_right between cell with ⟨next, second, -, same'⟩
  rcases same a x here with ⟨x', cell', size', bytes'⟩
  rcases same' a x' cell' with ⟨x'', lastx, sizex, bytesx⟩
  rcases same' b y' cell with ⟨y'', lasty, sizey, bytesy⟩
  have ran : bytesCmp (some a) (some b) s = _ := (bind_ok first _).trans (bind_ok second _)
  rw [run_ite, bytes] at ran
  refine ⟨next, ran.trans ?_⟩
  rw [compared]
  split
  · rw [bind_ok (load_ok lastx), bind_ok (load_ok lasty), run_ite, sizex, size', sizey, size, bytesx, bytes', bytesy,
      bytes]
    split
    · rfl
    · rfl
  · rfl

theorem compared_eq_zero (x y : MnBytes) : compared x y = 0 ↔ x.sz = y.sz ∧ x.content = y.content := by
  rw [compared]
  split
  next zero =>
    have hashes := (toInt64_sub_eq_zero _ _).mp zero
    split
    next sizes =>
      have lengths : x.content.length = y.content.length := by rw [length_content, length_content, sizes]
      rw [memcmp_eq_zero lengths, and_iff_right sizes]
    next sizes =>
      apply iff_of_false _ fun both => sizes both.1
      split <;> decide
  next other =>
    apply iff_of_false
    · split <;> decide
    · intro both
      exact other ((toInt64_sub_eq_zero _ _).mpr (congrArg (fasthash 0) both.2))

theorem of_run_map {A B : Type} {f : A → B} {x : BytesProg A} {b : B} (ran : (f <$> x) s = .ok (b, next)) :
    ∃ a, x s = .ok (a, next) ∧ f a = b := by
  rw [← bind_pure_comp] at ran
  rcases of_run_bind ran with ⟨a, middle, first, last⟩
  cases last
  exact ⟨a, first, rfl⟩

theorem run_map {A B : Type} (f : A → B) {x : BytesProg A} {c : A} (ran : x s = .ok (c, next)) :
    (f <$> x) s = .ok (f c, next) := by
  rw [← bind_pure_comp, bind_ok ran]
  rfl

theorem compares_cmp (cached : Cached s) (p q : Ptr) {answer : BytesAnswer}
    (ran : bytesStep system (.cmp p q) s = .ok (answer, next)) : Compares (.cmp p q) s answer := by
  intro x y first second
  rcases of_run_load first with ⟨-, a, rfl, here⟩
  rcases of_run_load second with ⟨-, b, rfl, there⟩
  rcases bytesCmp_ok cached here there with ⟨final, compared⟩
  cases (run_map BytesAnswer.code compared).symm.trans ran
  rw [← compared_eq_zero, BytesAnswer.code.injEq]

theorem keeps_create (room sz : Nat) (enough : sz ≤ room) (bytes : List UInt8) :
    Keeps Remembers (fun _ => True) (create system room sz enough bytes) :=
  keeps_alloc system (fun _ => remembers_of_reset rfl) fun _ => keeps_pure trivial

theorem keeps_bytesNew (sz : Nat) : Keeps Remembers (fun _ => True) (bytesNew system sz) :=
  (keeps_check _).bind fun _ _ => keeps_create sz sz le_rfl []

theorem keeps_bytesDecref (p : Ptr) : Keeps Remembers (fun _ => True) (bytesDecref p) := by
  apply keeps_ite
  · exact fun _ => keeps_pure trivial
  · intro _
    have lowered : ∀ x : MnBytes, Remembers x → Remembers { x with nref := x.nref - 1 } := fun x remembers => remembers
    apply (keeps_update p lowered).bind
    intro _ _
    apply (keeps_load p).bind
    intro x _
    apply keeps_ite
    · exact fun _ => keeps_free p
    · exact fun _ => keeps_pure trivial

theorem keeps_base64EncodeUrlStr (p : Ptr) : Keeps Remembers (fun _ => True) (bytesBase64EncodeUrlStr system p) := by
  apply (keeps_load p).bind
  intro x _
  apply keeps_ite
  · exact fun _ => keeps_pure trivial
  · intro _
    dsimp only
    split
    · apply (keeps_bytesNew _).bind
      intro res _
      exact (keeps_bytesDecref res).bind fun _ _ => keeps_pure trivial
    · exact keeps_create _ _ _ _

theorem keeps_urlencodeInto (dst : Ptr) (bytes : List UInt8) :
    Keeps Remembers (fun _ => True) (urlencodeInto dst bytes) := by
  apply (keeps_load dst).bind
  intro d _
  split
  · apply keeps_ite
    · exact fun _ => keeps_update dst fun _ _ => remembers_of_reset rfl
    · exact fun _ => keeps_fault .outOfFuel
  · exact keeps_fault .assertion

theorem keeps_reset (p : Ptr) {f : MnBytes → MnBytes} (reset : ∀ x, (f x).hash = 0) {A : Type} (g : Unit → A) :
    Keeps Remembers (fun _ => True) (g <$> update p f : BytesProg A) :=
  (keeps_update p fun x _ => remembers_of_reset (reset x)).map g

theorem rstripBlanks_hash (x : MnBytes) : (bytesRstripBlanks x).hash = 0 := by
  rw [bytesRstripBlanks]
  split
  · rfl
  · rfl

/-- The calls that neither copy into a string nor decode one. -/
def Resets : BytesOp → Prop
  | .copy _ _ _ => False
  | .copyz _ _ _ => False
  | .base64DecodeUrl _ => False
  | _ => True

variable (system) in
/-- They keep the caches right. -/
theorem keeps_bytesStep (op : BytesOp) (resets : Resets op) :
    Keeps Remembers (fun _ => True) (bytesStep system op) := by
  cases op with
  | new sz => exact (keeps_bytesNew sz).map _
  | newFromStr s => exact (keeps_create _ _ _ _).map _
  | newFromBytes p =>
      apply Keeps.map (Q := fun _ => True)
      apply (keeps_load p).bind
      intro x _
      exact (keeps_check _).bind fun _ _ => keeps_create _ _ _ _
  | newFromStrLen s sz =>
      apply Keeps.map (Q := fun _ => True)
      exact keeps_ite (fun _ => keeps_create _ _ _ _) fun _ => keeps_fault .dangling
  | newFromBufLen s sz =>
      apply Keeps.map (Q := fun _ => True)
      exact keeps_ite (fun _ => keeps_create _ _ _ _) fun _ => keeps_fault .dangling
  | newFromMemLen s sz =>
      apply Keeps.map (Q := fun _ => True)
      exact keeps_ite (fun _ => keeps_create _ _ _ _) fun _ => keeps_fault .dangling
  | initializer nref s =>
      apply Keeps.map (Q := fun _ => True)
      exact keeps_alloc system (fun _ => remembers_of_reset rfl) fun _ => keeps_pure trivial
  | printf text =>
      apply Keeps.map (Q := fun _ => True)
      cases text with
      | none => exact keeps_bytesNew 0
      | some text => exact keeps_create _ _ _ _
  | jsonEscape src =>
      apply Keeps.map (Q := fun _ => True)
      apply (keeps_load src).bind
      intro x _
      exact (keeps_check _).bind fun _ _ => keeps_create _ _ _ _
  | base64EncodeUrlStr p => exact (keeps_base64EncodeUrlStr p).map _
  | incref p =>
      have raised : ∀ x : MnBytes, Remembers x → Remembers { x with nref := x.nref + 1 } := fun x remembers => remembers
      exact (keeps_update p raised).map _
  | decref p => exact (keeps_bytesDecref p).map _
  | jsonUnescape p => exact keeps_reset p (fun _ => rfl) _
  | tr p pairs => exact keeps_reset p (fun _ => rfl) _
  | setLower p => exact keeps_reset p (fun _ => rfl) _
  | setUpper p => exact keeps_reset p (fun _ => rfl) _
  | memset p c => exact keeps_reset p (fun _ => rfl) _
  | memsetz p c =>
      apply Keeps.map (Q := fun _ => True)
      apply (keeps_load p).bind
      intro x _
      exact keeps_ite (fun _ => keeps_fault .dangling) fun _ => keeps_update p fun _ _ => remembers_of_reset rfl
  | urldecode p => exact keeps_reset p (fun _ => rfl) _
  | urlencode2 dst src =>
      apply Keeps.map (Q := fun _ => True)
      exact (keeps_load src).bind fun x _ => keeps_urlencodeInto dst x.content
  | strUrlencode2 dst src =>
      apply Keeps.map (Q := fun _ => True)
      apply (keeps_load dst).bind
      intro d _
      apply (keeps_load src).bind
      intro x _
      apply (keeps_check _).bind
      intro _ _
      exact keeps_ite (fun _ => keeps_fault .outOfFuel) fun _ => keeps_urlencodeInto dst _
  | rstripBlanks p => exact keeps_reset p rstripBlanks_hash _
  | brushdown p => exact keeps_reset p (fun _ => rfl) _
  | base64DecodeUrl p => exact resets.elim
  | copy dst src off => exact resets.elim
  | copyz dst src off => exact resets.elim
  | hash p => exact (keeps_bytesHash p).map _
  | cmp a b => exact (keeps_bytesCmp a b).map _

theorem copied_hash {d x after : MnBytes} {off : Nat} (made : copied d x off = .ok after) : after.hash = d.hash := by
  rw [copied] at made
  split at made
  · split at made
    · cases made
      rfl
    · cases made
  · cases made

theorem copiedz_hash {d x after : MnBytes} {off : Nat} (made : copiedz d x off = .ok after) : after.hash = d.hash := by
  rw [copiedz] at made
  split at made
  · split at made
    · cases made
      rfl
    · cases made
  · cases made

/-- A string whose hash is left alone remembers the right one exactly when it is settled. -/
theorem remembers_iff_settled {after : MnBytes} (remembers : Remembers x) (hash : after.hash = x.hash) :
    Remembers after ↔ Settled x after := by
  rw [Remembers, Settled, hash]
  by_cases empty : x.hash = 0
  · exact ⟨fun _ => .inl empty, fun _ => .inl empty⟩
  · have right := remembers.resolve_left empty
    rw [or_iff_right empty, or_iff_right empty, ← right]
    exact eq_comm

/-- A copy leaves right caches exactly when it is settled. -/
theorem copyWith_cached_iff {how : MnBytes → MnBytes → Nat → Except Fault MnBytes}
    (hash : ∀ d x off after, how d x off = .ok after → after.hash = d.hash) (cached : Cached s) (dst src : Ptr)
    (off : Nat) : (∀ next, copyWith how dst src off s = .ok ((), next) → Cached next) ↔ SettledCopy how dst src off s := by
  constructor
  · intro keeps d x after first second made
    rcases of_run_load first with ⟨-, a, rfl, cell⟩
    have ran : copyWith how (some a) src off s = .ok ((), { s with heap := s.heap.insert a after }) := by
      rw [copyWith, bind_ok first, bind_ok second]
      simp only [made, update_ok _ cell]
    have now := keeps _ ran a after (Finmap.lookup_insert _)
    exact (remembers_iff_settled (cached a d cell) (hash d x off after made)).mp now
  · intro settled next ran
    rcases of_run_bind ran with ⟨d, middle, first, further⟩
    rcases of_run_load first with ⟨rfl, a, rfl, cell⟩
    rcases of_run_bind further with ⟨x, middle, second, last⟩
    rcases of_run_load second with ⟨rfl, -⟩
    cases made : how d x off with
    | ok after =>
        simp only [made] at last
        rcases of_run_update last with ⟨c, n, same, -, rfl⟩
        cases same
        have now := settled d x after first second made
        exact allRecords_insert cached a ((remembers_iff_settled (cached a d cell) (hash d x off after made)).mpr now) _
    | error kind =>
        simp only [made] at last
        cases last

theorem remembers_hashed_iff (x : MnBytes) : Remembers { x with hash := x.hashed } ↔ Remembers x := by
  by_cases empty : x.hash = 0
  · have hashed : x.hashed = fasthash 0 x.content := if_pos empty
    exact ⟨fun _ => .inl empty, fun _ => .inr hashed⟩
  · have hashed : x.hashed = x.hash := if_neg empty
    rw [hashed]

theorem base64Decoded_remembers_iff (remembers : Remembers x) :
    Remembers x.base64Decoded ↔ Settled x x.base64Decoded := by
  by_cases filled : 0 < x.sz
  · have hash : x.base64Decoded.hash = x.hash := by rw [MnBytes.base64Decoded, dif_pos filled]
    exact remembers_iff_settled remembers hash
  · -- an empty string has the hash zero
    have none : x.content = [] := by
      rw [MnBytes.content, Nat.eq_zero_of_not_pos filled, List.take_zero]
    have zero : x.hash = 0 := by
      rcases remembers with empty | right
      · exact empty
      · rw [right, none]
        decide
    refine ⟨fun _ => .inl zero, fun _ => .inl ?_⟩
    rw [MnBytes.base64Decoded, dif_neg filled]
    change x.hash &&& 0x00ffffffffffffff = 0
    rw [zero, UInt64.zero_and]

theorem bytesBase64DecodeUrl_ok (cell : s.heap.lookup a = some x) :
    bytesBase64DecodeUrl (some a) s =
      .ok (if x.sz = 0 then -1 else (mnbase64DecodeUrlStdInplace x.data (x.sz - 1)).1,
        { s with heap := s.heap.insert a { x.base64Decoded with hash := x.base64Decoded.hashed } }) := by
  have decoded := Finmap.lookup_insert (a := a) (b := x.base64Decoded) s.heap
  rw [bytesBase64DecodeUrl, bind_ok (load_ok cell), bind_ok (update_ok _ cell),
    bind_ok (bytesHash_ok (s := { s with heap := s.heap.insert a x.base64Decoded }) decoded), Finmap.insert_insert]
  rfl

theorem truthful_of_keeps {op : BytesOp} (cached : Cached s)
    (keeps : Keeps Remembers (fun _ => True) (bytesStep system op))
    (compares : ∀ answer next, bytesStep system op s = .ok (answer, next) → Compares op s answer) :
    Truthful system op s :=
  fun answer next ran => ⟨(keeps s cached answer next ran).1, compares answer next ran⟩

theorem copy_truthful_iff {op : BytesOp} {x : BytesProg Unit} (step : bytesStep system op = (fun () => .done) <$> x)
    (compares : ∀ answer, Compares op s answer) :
    Truthful system op s ↔ ∀ next, x s = .ok ((), next) → Cached next := by
  rw [Truthful, step]
  constructor
  · exact fun right next ran => (right _ next (run_map _ ran)).1
  · intro right answer next ran
    rcases of_run_map ran with ⟨done, ran, -⟩
    exact ⟨right next ran, compares answer⟩

theorem bytesStep_truthful_iff (cached : Cached s) (op : BytesOp) : Truthful system op s ↔ Unstale op s := by
  cases op with
  | copy dst src off =>
      have compares : ∀ answer, Compares (.copy dst src off) s answer := fun _ => trivial
      apply (copy_truthful_iff rfl compares).trans
      exact copyWith_cached_iff (fun _ _ _ _ => copied_hash) cached dst src off
  | copyz dst src off =>
      have compares : ∀ answer, Compares (.copyz dst src off) s answer := fun _ => trivial
      apply (copy_truthful_iff rfl compares).trans
      exact copyWith_cached_iff (fun _ _ _ _ => copiedz_hash) cached dst src off
  | base64DecodeUrl p =>
      constructor
      · intro right x loaded
        rcases of_run_load loaded with ⟨-, a, rfl, cell⟩
        have ran := bytesBase64DecodeUrl_ok cell
        have now := (right _ _ (run_map BytesAnswer.code ran)).1 a _ (Finmap.lookup_insert _)
        exact (base64Decoded_remembers_iff (cached a x cell)).mp ((remembers_hashed_iff _).mp now)
      · intro settled answer next ran
        rcases of_run_map ran with ⟨res, ran, -⟩
        rcases of_run_bind ran with ⟨x, middle, loaded, -⟩
        rcases of_run_load loaded with ⟨rfl, a, rfl, cell⟩
        cases (bytesBase64DecodeUrl_ok cell).symm.trans ran
        have now := (base64Decoded_remembers_iff (cached a x cell)).mpr (settled x loaded)
        exact ⟨allRecords_insert cached a ((remembers_hashed_iff _).mpr now) _, trivial⟩
  | cmp p q =>
      have keeps : Keeps Remembers (fun _ => True) (bytesStep system (.cmp p q)) := (keeps_bytesCmp p q).map _
      have truthful := truthful_of_keeps cached keeps fun answer next ran => compares_cmp cached p q ran
      exact ⟨fun _ => trivial, fun _ => truthful⟩
  | _ =>
      exact ⟨fun _ => trivial, fun _ => truthful_of_keeps cached (keeps_bytesStep system _ trivial) fun _ _ _ => trivial⟩

/-- In a run of calls every string remembers nothing or the hash of its bytes, and
`bytes_cmp` tells which strings are the same, exactly as long as no call copies into a
string that has been hashed, or decodes one, so that its hash becomes another one. -/
theorem bytes_cache_iff (system : Allocator MnBytes) (tick : Nat) (ops : List BytesOp) :
    Along (bytesStep system) (Truthful system) ops ⟨∅, (), tick⟩ ↔ Along (bytesStep system) Unstale ops ⟨∅, (), tick⟩ := by
  have first : Cached ⟨∅, (), tick⟩ := by
    intro a x cell
    rw [Finmap.lookup_empty] at cell
    cases cell
  apply along_iff _ _ first
  · exact fun op s cached => bytesStep_truthful_iff cached op
  · exact fun op s answer next _ truthful ran => (truthful answer next ran).1

/-- Memory as the allocator may hand it out. -/
def noString : MnBytes := ⟨0, 0, 0, [], Nat.le_refl 0⟩

/-- "a" is hashed, then "b" is copied into it. -/
def staleCalls : List BytesOp :=
  [.newFromStr [97], .hash (some 1), .newFromStr [98], .copy (some 1) (some 2) 0]

/-- The two strings are equal after that, and `bytes_cmp` denies it. -/
theorem staleCalls_wrong : ¬ Along (bytesStep (.bump noString)) (Truthful (.bump noString))
    (staleCalls ++ [.cmp (some 1) (some 2)]) ⟨∅, (), 0⟩ := by
  intro right
  have facts : (execute (bytesStep (.bump noString)) staleCalls ⟨∅, (), 0⟩).map (fun r =>
      ((load (some 1) r.2).map fun x => (x.1.sz, x.1.content), (load (some 2) r.2).map fun x => (x.1.sz, x.1.content),
        (bytesStep (.bump noString) (.cmp (some 1) (some 2)) r.2).map Prod.fst)) =
      .ok (.ok (2, [98, 0]), .ok (2, [98, 0]), .ok (.code (-1))) := by decide +kernel
  cases ran : execute (bytesStep (.bump noString)) staleCalls ⟨∅, (), 0⟩ with
  | error kind =>
      rw [ran] at facts
      cases facts
  | ok result =>
      rw [ran] at facts
      rcases Prod.mk.inj (Except.ok.inj facts) with ⟨first, facts⟩
      rcases Prod.mk.inj facts with ⟨second, compared⟩
      rcases of_map_ok first with ⟨⟨x, s⟩, one, same⟩
      rcases of_map_ok second with ⟨⟨y, t⟩, two, same'⟩
      rcases of_map_ok compared with ⟨⟨answer, next⟩, stepped, rfl⟩
      obtain rfl := (of_run_load one).1
      obtain rfl := (of_run_load two).1
      rcases Prod.mk.inj same with ⟨size, bytes⟩
      rcases Prod.mk.inj same' with ⟨size', bytes'⟩
      have truthful : Truthful (.bump noString) (.cmp (some 1) (some 2)) result.2 := right.last ran
      have agree := (truthful _ next stepped).2 x y one two
      cases agree.mpr ⟨size.trans size'.symm, bytes.trans bytes'.symm⟩

end MnCommon.ByteStrings
