import MnCommon.Vbytestream.Model

/-! What the segments of a vectored stream hold, and the functions that work on one of
them. -/

namespace MnCommon.Vbytestream

open Memory (Fault)
open Bytestream (Text toSize printed splice length_splice take_splice take_splice_all length_printed)

/-- All the memory of a slot. -/
def Iovec.bytes (slot : Iovec) : List UInt8 :=
  match slot.iovBase with
  | some s => s.data
  | none => []

def Iovec.segment (slot : Iovec) : List UInt8 := slot.bytes.take slot.iovLen

/-- The data between the start of the last segment and the end-of-data mark. -/
def edgeBytes (s : Mnvbytestream) : List UInt8 :=
  match arrayGet s.iov s.eod.idx with
  | some edge => edge.bytes.take s.eod.offt.toNat
  | none => []

/-- The data from the start of a segment up to the end-of-data mark. -/
def contentFrom (k : Nat) (s : Mnvbytestream) : List UInt8 :=
  ((s.iov.take s.eod.idx.toNat).drop k).flatMap Iovec.segment ++ edgeBytes s

def content (s : Mnvbytestream) : List UInt8 := contentFrom 0 s

/-- A segment in use, no longer than its memory. -/
def Iovec.Closed (slot : Iovec) : Prop := ∃ s, slot.iovBase = some s ∧ slot.iovLen ≤ s.data.length

/-- The segments in use, and what comes after them: an edge that is all there, if there
are data in it. -/
structure Laid (s : Mnvbytestream) (full tail : List Iovec) : Prop where
  split : s.iov = full ++ tail
  idx : s.eod.idx = full.length
  closed : ∀ slot ∈ full, slot.Closed
  nonneg : 0 ≤ s.eod.offt
  edge : 0 < s.eod.offt → ∃ b rest, tail = { iovBase := some b, iovLen := b.sz } :: rest ∧
    s.eod.offt < b.sz ∧ b.sz < 2 ^ 63

/-- The slots from the end-of-data mark on: all unused, or an edge that is all there and
has some room left, and unused ones. -/
inductive Tail (offt : Int) : List Iovec → Prop where
  | fresh {tail : List Iovec} (empty : offt = 0) (unused : ∀ slot ∈ tail, slot = iovecInit) : Tail offt tail
  | filling (s : Mnbytes) {rest : List Iovec} (some : 0 < offt) (more : offt < s.sz) (small : s.sz < 2 ^ 63)
      (unused : ∀ slot ∈ rest, slot = iovecInit) : Tail offt ({ iovBase := s, iovLen := s.sz } :: rest)

/-- A stream in good order, without memory behind the mark apart from the edge. -/
structure Clean (s : Mnvbytestream) (full tail : List Iovec) : Prop where
  split : s.iov = full ++ tail
  idx : s.eod.idx = full.length
  closed : ∀ slot ∈ full, slot.Closed
  tail : Tail s.eod.offt tail

def Allocated (idx : Int) (s : Mnvbytestream) : Prop := (arrayGet s.iov idx).bind Iovec.iovBase ≠ none

instance (idx : Int) (s : Mnvbytestream) : Decidable (Allocated idx s) := inferInstanceAs (Decidable (_ ≠ _))

/-- The mark is at the start of a segment that has memory already. -/
structure Blocked (s : Mnvbytestream) : Prop where
  empty : s.eod.offt = 0
  laid : ∃ full tail, Laid s full tail
  edge : Allocated s.eod.idx s
  first : Allocated 0 s

variable {E : Type} {sys : System E} {s next : Mnvbytestream} {full tail rest iov : List Iovec} {slot edge : Iovec}
  {k : Nat} {idx : Int}

theorem arrayGet_end (full : List Iovec) (edge : Iovec) (rest : List Iovec) :
    arrayGet (full ++ edge :: rest) full.length = some edge := by
  rw [arrayGet, if_pos (Int.natCast_nonneg _), Int.toNat_natCast, List.getElem?_append_right le_rfl, Nat.sub_self]
  rfl

theorem arrayGet_past (full : List Iovec) : arrayGet full full.length = none := by
  rw [arrayGet, if_pos (Int.natCast_nonneg _), Int.toNat_natCast]
  exact List.getElem?_eq_none le_rfl

theorem set_end (full : List Iovec) (edge slot : Iovec) (rest : List Iovec) :
    (full ++ edge :: rest).set full.length slot = full ++ slot :: rest := by
  rw [List.set_append_right _ _ le_rfl, Nat.sub_self]
  rfl

/-- The data, from how the slots are laid out. -/
theorem contentFrom_eq (split : s.iov = full ++ tail) (idx : s.eod.idx = full.length) (k : Nat) :
    contentFrom k s =
      (full.drop k).flatMap Iovec.segment ++ (tail.headD iovecInit).bytes.take s.eod.offt.toNat := by
  rw [contentFrom, edgeBytes, idx, split, Int.toNat_natCast, List.take_left]
  cases tail with
  | nil =>
      rw [List.append_nil, arrayGet_past]
      exact congrArg (fun bytes => _ ++ bytes) List.take_nil.symm
  | cons edge rest =>
      rw [arrayGet_end]
      rfl

theorem edgeBytes_empty (empty : s.eod.offt = 0) : edgeBytes s = [] := by
  rw [edgeBytes, empty]
  cases arrayGet s.iov s.eod.idx with
  | none => rfl
  | some edge => rfl

theorem Clean.laid (clean : Clean s full tail) : Laid s full tail := by
  cases shape : clean.tail with
  | fresh empty unused => exact ⟨clean.split, clean.idx, clean.closed, empty.ge, fun some => absurd empty some.ne'⟩
  | filling b some more small unused =>
      exact ⟨clean.split, clean.idx, clean.closed, some.le, fun _ => ⟨b, _, rfl, more, small⟩⟩

theorem laid_of_empty (split : s.iov = full ++ tail) (idx : s.eod.idx = full.length)
    (closed : ∀ slot ∈ full, slot.Closed) (empty : s.eod.offt = 0) : Laid s full tail :=
  ⟨split, idx, closed, empty.ge, fun some => absurd empty some.ne'⟩

theorem Laid.before (laid : Laid s full tail) : 0 ≤ s.eod.idx := by
  rw [laid.idx]
  exact Int.natCast_nonneg _

theorem allocated_end (split : s.iov = full ++ edge :: rest) (idx : s.eod.idx = full.length)
    (used : edge.iovBase ≠ none) : Allocated s.eod.idx s := by
  rw [Allocated, split, idx, arrayGet_end]
  exact used

theorem Iovec.Closed.used (closed : slot.Closed) : slot.iovBase ≠ none := by
  rcases closed with ⟨s, base, -⟩
  rw [base]
  exact Option.some_ne_none s

theorem allocated_first (split : s.iov = full ++ edge :: rest) (closed : ∀ slot ∈ full, slot.Closed)
    (used : edge.iovBase ≠ none) : Allocated 0 s := by
  rw [Allocated, split]
  cases full with
  | nil => exact used
  | cons slot others => exact (closed slot List.mem_cons_self).used

/-- A slot that has not been used, at the end of those that are. -/
theorem iovecGetSafe_unused (full : List Iovec) (unused : ∀ slot ∈ tail, slot = iovecInit) :
    ∃ rest, iovecGetSafe full.length (full ++ tail) = .ok (iovecInit, full ++ iovecInit :: rest) ∧
      ∀ slot ∈ rest, slot = iovecInit := by
  cases tail with
  | nil =>
      refine ⟨[], ?_, by simp⟩
      have longer : arrayEnsureLen full ((full.length : Int) + 1) = .ok (full ++ [iovecInit]) := by
        have size : ((full.length : Int) + 1).toNat = full.length + 1 := by omega
        have one : full.length + 1 - full.length = 1 := by omega
        rw [arrayEnsureLen, if_pos (by omega), size, List.take_of_length_le (by omega), one]
        rfl
      rw [List.append_nil, iovecGetSafe, arrayGet_past]
      simp only [longer, bind, Except.bind, arrayGet_end]
      rfl
  | cons slot rest =>
      have same : slot = iovecInit := unused slot (by simp)
      subst same
      refine ⟨rest, ?_, fun slot inside => unused slot (by simp [inside])⟩
      rw [iovecGetSafe, arrayGet_end]

theorem iovecGetSafe_end (full : List Iovec) (edge : Iovec) (rest : List Iovec) :
    iovecGetSafe full.length (full ++ edge :: rest) = .ok (edge, full ++ edge :: rest) := by
  rw [iovecGetSafe, arrayGet_end]

/-- The sizes for which memory can be had. -/
def Creatable (sz : Int) : Prop := 0 < sz ∧ sz + (8 - sz % 8) + 24 < 2 ^ 63

instance (sz : Int) : Decidable (Creatable sz) := inferInstanceAs (Decidable (_ ∧ _))

theorem Creatable.toSize {sz : Int} (creatable : Creatable sz) : (toSize sz : Int) = sz := by
  rcases creatable with ⟨positive, small⟩
  exact Bytestream.toSize_of_range positive.le (by omega)

variable (sys) in
theorem iovecAlloc_init {sz : Int} (creatable : Creatable sz) (env : E) :
    ∃ s env', iovecAlloc sys iovecInit (toSize sz) env = .ok ({ iovBase := some s, iovLen := s.sz }, env') ∧
      (s.sz : Int) = sz := by
  have size := creatable.toSize
  rcases creatable with ⟨positive, small⟩
  have nonzero : toSize sz ≠ 0 := by omega
  have fits : 24 + (toSize sz + (8 - toSize sz % 8)) < 2 ^ 63 := by omega
  simp only [iovecAlloc, iovecInit, and_self, if_true, bytesNew, if_neg nonzero, if_pos fits, bind, Except.bind]
  exact ⟨_, _, rfl, size⟩

variable (sys) in
theorem iovecAlloc_fault {sz : Int} (low : -2 ^ 63 ≤ sz) (high : sz < 2 ^ 63) (uncreatable : ¬ Creatable sz)
    (slot : Iovec) (env : E) : ∃ fault, iovecAlloc sys slot (toSize sz) env = .error fault := by
  rw [iovecAlloc]
  by_cases unused : slot.iovBase = none ∧ slot.iovLen = 0
  · rw [if_pos unused, bytesNew]
    by_cases zero : toSize sz = 0
    · rw [if_pos zero]
      exact ⟨_, rfl⟩
    · have large : ¬ 24 + (toSize sz + (8 - toSize sz % 8)) < 2 ^ 63 := by
        rw [Creatable] at uncreatable
        rw [toSize] at *
        omega
      simp only [if_neg zero, if_neg large]
      exact ⟨_, rfl⟩
  · rw [if_neg unused]
    exact ⟨_, rfl⟩

theorem toInt_eq_ite (n : Int) : toInt n = if n % 2 ^ 32 < 2 ^ 31 then n % 2 ^ 32 else n % 2 ^ 32 - 2 ^ 32 := by
  rw [toInt, Int.bmod]
  omega

/-- Room that is too large for an `int` becomes smaller, or more than any text needs. -/
theorem printed_room {n : Int} (nonneg : 0 ≤ n) (text : Text) :
    ((printed (toSize (toInt n)) text).length : Int) ≤ n := by
  have length := length_printed (toSize (toInt n)) text
  have short := text.short
  by_cases negative : toInt n < 0
  · have whole : (printed (toSize (toInt n)) text).length ≤ text.chars.length + 1 := by
      rw [printed]
      split
      · exact Nat.zero_le _
      · simp only [List.length_append, List.length_take, List.length_singleton]
        omega
    rw [toInt_eq_ite] at negative
    omega
  · have bound := toInt_eq_ite n
    have size : (toSize (toInt n) : Int) = toInt n := Bytestream.toSize_of_range (by omega) (by omega)
    omega

/-- What `vsnprintf` leaves in a segment: the data before it, and the text if there is
room for all of it. -/
theorem vsnprintf_spec (s : Mnbytes) (len size : Nat) {offt : Int} (text : Text) (nonneg : 0 ≤ offt)
    (fits : offt + (printed size text).length ≤ s.data.length) :
    ∃ s', vsnprintf { iovBase := some s, iovLen := len } offt size (some text) =
        .ok (text.chars.length, { iovBase := some s', iovLen := len }) ∧ s'.sz = s.sz ∧
      s'.data.take offt.toNat = s.data.take offt.toNat ∧
      (text.chars.length < size →
        s'.data.take (offt + text.chars.length).toNat = s.data.take offt.toNat ++ text.chars) := by
  rw [vsnprintf, poke]
  by_cases none : printed size text = []
  · rw [if_pos none]
    refine ⟨s, rfl, rfl, rfl, fun short => ?_⟩
    rw [printed, if_neg (by omega)] at none
    simp at none
  · have room : 0 ≤ offt ∧ offt.toNat + (printed size text).length ≤ s.data.length := ⟨nonneg, by omega⟩
    rw [if_neg none]
    simp only [dif_pos room]
    refine ⟨s.write offt.toNat (printed size text) room.2, rfl, rfl, take_splice room.2, fun short => ?_⟩
    have all : printed size text = text.chars ++ [0] := by
      rw [printed, if_neg (by omega), List.take_of_length_le (by omega)]
    have upto : (offt + text.chars.length).toNat = offt.toNat + text.chars.length := by omega
    have inside := room.2
    have front : (s.data.take offt.toNat).length = offt.toNat := List.length_take_of_le (by omega)
    change (splice s.data offt.toNat (printed size text)).take _ = _
    rw [all] at inside ⊢
    have whole := congrArg (List.take (offt.toNat + text.chars.length)) (take_splice_all inside)
    rw [List.length_append, List.take_take, min_eq_left (by simp), ← List.append_assoc,
      List.take_left' (by rw [List.length_append, front])] at whole
    rw [upto, whole]

end MnCommon.Vbytestream
