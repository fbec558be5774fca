import Mathlib.Algebra.GroupWithZero.Nat
import MnCommon.Vbytestream.Write

/-! What `vbytestream_read` leaves in a stream. -/

namespace MnCommon.Vbytestream

open Memory (Fault Along)
open Bytestream (Text toSize take_splice_all)

/-- All calls, in any order. -/
inductive StreamOp where
  | edit (op : EditOp)
  | read (sz : Int64)
  | write

variable {E : Type} (sys : System E)

def step : StreamOp → World E → Except Fault (Answer E)
  | .edit op, w => edit sys op w
  | .read sz, w => vbytestreamRead sys sz.toInt w
  | .write, w => vbytestreamWrite sys w

/-- The slots that a call offers to `readv`, none if it does not get as far. -/
def offers (sz : Int) (w : World E) : Except Fault (List Iovec × World E) := do
  let needed ← slotsNeeded sz w.stream.growsz
  if 0 < needed ∧ needed < sys.iovMax then offerSlots sys needed w else return ([], w)

/-- The bytes that come in. -/
def incoming (offered : List Iovec) (env : E) : List UInt8 :=
  ((sys.readv (room offered) env).1.getD []).take (room offered)

/-- Every buffer offered has memory; the bytes that come in are appended, and without
any nothing changes. -/
def Appends (sz : Int) (w : World E) : Prop :=
  ∃ answer next offered middle, vbytestreamRead sys sz w = .ok (answer, next) ∧
    offers sys sz w = .ok (offered, middle) ∧ (∀ slot ∈ offered, slot.iovBase ≠ none) ∧
    (0 < answer → answer = (incoming sys offered middle.env).length ∧
      content next.stream = content w.stream ++ incoming sys offered middle.env) ∧
    (answer ≤ 0 → content next.stream = content w.stream ∧ next.stream.eod = w.stream.eod ∧
      next.stream.pos = w.stream.pos)

/-- The first slot behind the data. -/
def ffree (s : Mnvbytestream) : Int := s.eod.idx + s.part

/-- The mark comes to stand behind `n` bytes: the whole slots before it and the part of
the next one make up `n`, and the edge before them has no spare room. -/
def Landing (n : Nat) (offered : List Iovec) (s : Mnvbytestream) : Prop :=
  ∃ quot rem : Int, ∃ k : Nat, div n s.growsz = .ok (quot, rem) ∧ 0 ≤ rem ∧ s.eod.idx + quot = ffree s + k ∧
    ((offered.take k).map Iovec.iovLen).sum + rem = n ∧
    (0 < rem → ∃ slot, offered[k]? = some slot ∧ rem ≤ slot.iovLen) ∧
    (0 < s.eod.offt → ∃ edge, arrayGet s.iov s.eod.idx = some edge ∧ edge.iovLen = s.eod.offt)

/-- A request that is refused, or one for which all slots have memory already and after
which the mark stands where the bytes end. -/
def Prepared (sz : Int) (w : World E) : Prop :=
  0 ≤ sz ∧ 0 ≤ w.stream.eod.offt ∧ ∃ needed, slotsNeeded sz w.stream.growsz = .ok needed ∧
    (needed = 0 ∨ sys.iovMax ≤ needed ∨ needed < 0 ∧ w.stream.eod.idx ≤ w.stream.iov.length ∨
      0 < needed ∧ 0 ≤ w.stream.eod.idx ∧ ffree w.stream + needed ≤ w.stream.iov.length ∧
        ∃ offered, slotsFrom (ffree w.stream) needed w.stream.iov = offered ∧ (∀ slot ∈ offered, slot.Closed) ∧
          (incoming sys offered w.env = [] ∨ Landing (incoming sys offered w.env).length offered w.stream))

variable {sys} {w : World E} {s : Mnvbytestream} {slots : List Iovec} {slot : Iovec} {bytes : List UInt8}

theorem poke_closed (closed : slot.Closed) (short : bytes.length ≤ slot.iovLen) :
    ∃ slot', poke slot 0 bytes = .ok slot' ∧ slot'.iovLen = slot.iovLen ∧
      slot'.bytes.take bytes.length = bytes := by
  rcases closed with ⟨b, base, inside⟩
  rw [poke]
  by_cases none : bytes = []
  · rw [if_pos none, none]
    exact ⟨slot, rfl, rfl, rfl⟩
  · have fits : (0 : Int) ≤ 0 ∧ (0 : Int).toNat + bytes.length ≤ b.data.length := ⟨le_rfl, by simp; omega⟩
    rw [if_neg none, base]
    simp only [dif_pos fits]
    refine ⟨_, rfl, rfl, ?_⟩
    have whole := take_splice_all fits.2
    rwa [Int.toNat_zero, zero_add, List.take_zero, List.nil_append] at whole

/-- Up to the place where the bytes end, the slots hold the bytes. -/
theorem scatter_spec (closed : ∀ slot ∈ slots, slot.Closed) (fits : bytes.length ≤ room slots) :
    ∃ filled, scatter bytes slots = .ok filled ∧ filled.length = slots.length ∧
      ∀ k r : Nat, ((slots.take k).map Iovec.iovLen).sum + r = bytes.length →
        (0 < r → ∃ slot, slots[k]? = some slot ∧ r ≤ slot.iovLen) →
        (filled.take k).flatMap Iovec.segment ++ ((filled.drop k).headD iovecInit).bytes.take r = bytes := by
  induction slots generalizing bytes with
  | nil =>
      have none : bytes = [] := List.eq_nil_of_length_eq_zero (Nat.le_zero.mp fits)
      refine ⟨[], ?_, rfl, fun k r sum _ => ?_⟩
      · rw [scatter]
      · rw [none, List.length_nil] at sum
        have zero : r = 0 := by omega
        rw [none, zero, List.take_nil, List.take_zero]
        rfl
  | cons slot slots ih =>
      rcases List.forall_mem_cons.mp closed with ⟨used, others⟩
      have roomy : room (slot :: slots) = slot.iovLen + room slots := by
        rcases used with ⟨b, base, -⟩
        rw [room, base]
      have first : (bytes.take slot.iovLen).length ≤ slot.iovLen := List.length_take_le _ _
      rcases poke_closed used first with ⟨slot', poked, same, held⟩
      have shorter : (bytes.drop slot.iovLen).length ≤ room slots := by
        rw [List.length_drop]
        omega
      rcases ih others shorter with ⟨filled, ran, length, holds⟩
      refine ⟨slot' :: filled, ?_, by simp only [List.length_cons, length], fun k r sum enough => ?_⟩
      · rw [scatter, poked]
        simp only [bind, Except.bind, ran]
        rfl
      · cases k with
        | zero =>
            rw [List.take_zero, List.map_nil, List.sum_nil, zero_add] at sum
            rw [List.take_zero, List.drop_zero, sum]
            change [] ++ slot'.bytes.take bytes.length = bytes
            rw [List.nil_append]
            rcases Nat.eq_zero_or_pos r with none | some
            · have empty : bytes = [] := List.eq_nil_of_length_eq_zero (by omega)
              rw [empty, List.length_nil, List.take_zero]
            · rcases enough some with ⟨here, found, below⟩
              have head : slot = here := Option.some.inj found
              have all : bytes.take slot.iovLen = bytes := List.take_of_length_le (by rw [head]; omega)
              rwa [all] at held
        | succ k =>
            rw [List.take_succ_cons, List.map_cons, List.sum_cons] at sum
            have full : (bytes.take slot.iovLen).length = slot.iovLen := List.length_take_of_le (by omega)
            have segment : slot'.segment = bytes.take slot.iovLen := by
              rw [Iovec.segment, same]
              rwa [full] at held
            have rest := holds k r (by rw [List.length_drop]; omega) enough
            rw [List.take_succ_cons, List.drop_succ_cons, List.flatMap_cons, segment, List.append_assoc, rest,
              List.take_append_drop]

/-- Slots behind the mark may go. -/
theorem contentFrom_take {m : Nat} (k : Nat) (inside : s.eod.idx < m) :
    contentFrom k { s with iov := s.iov.take m } = contentFrom k s := by
  have slots : (s.iov.take m).take s.eod.idx.toNat = s.iov.take s.eod.idx.toNat := by
    rw [List.take_take, min_eq_left (by omega)]
  have edge : arrayGet (s.iov.take m) s.eod.idx = arrayGet s.iov s.eod.idx := by
    rw [arrayGet, arrayGet]
    split
    · rw [List.getElem?_take_of_lt (by omega)]
    · rfl
  have last : edgeBytes { s with iov := s.iov.take m } = edgeBytes s := by
    rw [edgeBytes, edgeBytes, edge]
  rw [contentFrom, contentFrom, last, slots]

/-- The slots up to the first free one hold the data, if the edge has no spare room. -/
theorem flatMap_ffree (low : 0 ≤ s.eod.idx) (nonneg : 0 ≤ s.eod.offt)
    (closed : 0 < s.eod.offt → ∃ edge, arrayGet s.iov s.eod.idx = some edge ∧ edge.iovLen = s.eod.offt) :
    (s.iov.take (ffree s).toNat).flatMap Iovec.segment = content s := by
  rw [content, contentFrom, List.drop_zero]
  rcases nonneg.eq_or_lt with empty | filled
  · have part : s.part = 0 := if_neg (by omega)
    rw [edgeBytes_empty empty.symm, List.append_nil, ffree, part, add_zero]
  · have part : s.part = 1 := if_pos filled
    rcases closed filled with ⟨edge, found, length⟩
    have next : (s.eod.idx + 1).toNat = s.eod.idx.toNat + 1 := by omega
    have here : s.iov[s.eod.idx.toNat]? = some edge := by
      rwa [arrayGet, if_pos low] at found
    have width : edge.iovLen = s.eod.offt.toNat := by omega
    rw [ffree, part, next, List.take_add_one, here, edgeBytes, found, List.flatMap_append, Option.toList_some,
      List.flatMap_singleton, Iovec.segment, width]

/-- After the bytes have come in, the mark comes to stand behind them. -/
theorem arrive_spec {front filled : List Iovec} {n : Nat} {quot rem : Int} {k : Nat}
    (slots : w.stream.iov = front ++ filled) (divided : div n w.stream.growsz = .ok (quot, rem)) (nonneg : 0 ≤ rem)
    (lands : w.stream.eod.idx + quot = front.length + k) (inside : 0 < rem → k < filled.length) :
    ∃ next, arrive n w = .ok (n, next) ∧ content next.stream =
      front.flatMap Iovec.segment ++ ((filled.take k).flatMap Iovec.segment ++
        ((filled.drop k).headD iovecInit).bytes.take rem.toNat) := by
  let eod : Cursor := { idx := w.stream.eod.idx + quot, offt := rem, total := w.stream.eod.total + n }
  let s : Mnvbytestream := { w.stream with eod := eod }
  rcases nonneg.eq_or_lt with zero | some
  · have whole : (eod.idx.toNat : Int) = front.length + k := by
      change ((w.stream.eod.idx + quot).toNat : Int) = _
      omega
    have index : eod.idx.toNat = front.length + k := by omega
    have nothing : edgeBytes s = [] := edgeBytes_empty zero.symm
    refine ⟨⟨s, w.env⟩, ?_, ?_⟩
    · rw [arrive, divided]
      simp only [bind, Except.bind, if_neg (not_lt.mpr zero.ge)]
      rfl
    · rw [content, contentFrom, List.drop_zero, nothing, List.append_nil]
      change (w.stream.iov.take eod.idx.toNat).flatMap Iovec.segment = _
      have empty : rem.toNat = 0 := by omega
      rw [slots, index, List.take_length_add_append, List.flatMap_append, empty, List.take_zero, List.append_nil]
  · have below := inside some
    have drop : filled.drop k = filled[k] :: filled.drop (k + 1) := List.drop_eq_getElem_cons below
    have split : s.iov = (front ++ filled.take k) ++ filled[k] :: filled.drop (k + 1) := by
      rw [← drop, List.append_assoc, List.take_append_drop]
      exact slots
    have width : (front ++ filled.take k).length = front.length + k := by
      rw [List.length_append, List.length_take_of_le below.le]
    have idx : s.eod.idx = ((front ++ filled.take k).length : Int) := by
      rw [width]
      change w.stream.eod.idx + quot = _
      omega
    have found : arrayGet w.stream.iov (w.stream.eod.idx + quot) = Option.some filled[k] := by
      have here := arrayGet_end (front ++ filled.take k) filled[k] (filled.drop (k + 1))
      rwa [← split, ← idx] at here
    let edge : Iovec := { filled[k] with iovLen := toSize rem }
    have after : (s.put s.eod.idx edge).iov = (front ++ filled.take k) ++ edge :: filled.drop (k + 1) :=
      put_end split idx edge
    refine ⟨⟨s.put s.eod.idx edge, w.env⟩, ?_, ?_⟩
    · rw [arrive, divided]
      simp only [bind, Except.bind, if_pos some, found]
      rfl
    · rw [content, contentFrom_eq after idx, List.drop_zero, List.flatMap_append, List.append_assoc, drop]
      rfl

/-- With memory behind all the slots there are, nothing has to be made. -/
theorem offerSlots_there {needed : Int} (low : 0 ≤ w.stream.eod.idx) (some : 0 < needed)
    (there : ffree w.stream + needed ≤ w.stream.iov.length) :
    offerSlots sys needed w = .ok (slotsFrom (ffree w.stream) needed w.stream.iov,
      ⟨{ w.stream with iov := w.stream.iov.take (ffree w.stream + needed).toNat }, w.env⟩) := by
  have start : 0 ≤ ffree w.stream := by
    rw [ffree, Mnvbytestream.part]
    split <;> omega
  have enough : (ffree w.stream + needed).toNat - w.stream.iov.length = 0 := by omega
  have ensured : arrayEnsureLen w.stream.iov (ffree w.stream + needed) =
      .ok (w.stream.iov.take (ffree w.stream + needed).toNat) := by
    rw [arrayEnsureLen, if_pos (by omega), enough, List.replicate_zero, List.append_nil]
  have same : slotsFrom (ffree w.stream) needed (w.stream.iov.take (ffree w.stream + needed).toNat) =
      slotsFrom (ffree w.stream) needed w.stream.iov := by
    have count : (ffree w.stream + needed).toNat - (ffree w.stream).toNat = needed.toNat := by omega
    rw [slotsFrom, slotsFrom, if_pos start, if_pos start, List.drop_take, count, List.take_take, min_self]
  rw [offerSlots]
  change (arrayEnsureLen w.stream.iov (ffree w.stream + needed) >>= _) = _
  rw [ensured]
  simp only [bind, Except.bind, Nat.sub_self, List.range'_zero, allocSlots]
  rw [← ffree, same]
  rfl

theorem receive_closed {needed : Int} {offered : List Iovec} {env env' : E} {got : List UInt8}
    (nonneg : 0 ≤ s.eod.offt) (low : 0 ≤ s.eod.idx) (wanted : 0 < needed) (there : ffree s + needed ≤ s.iov.length)
    (found : slotsFrom (ffree s) needed s.iov = offered) (closed : ∀ slot ∈ offered, slot.Closed)
    (answer : sys.readv (room offered) env = (some got, env')) (nonempty : incoming sys offered env ≠ [])
    (lands : Landing (incoming sys offered env).length offered s) :
    ∃ next, receive offered (some got, env') { s with iov := s.iov.take (ffree s + needed).toNat } =
        .ok ((incoming sys offered env).length, next) ∧
      content next.stream = content s ++ incoming sys offered env := by
  have start : 0 ≤ ffree s := by
    rw [ffree, Mnvbytestream.part]
    split <;> omega
  have bytes : incoming sys offered env = got.take (room offered) := by
    rw [incoming, answer]
    rfl
  have fits : (incoming sys offered env).length ≤ room offered := by
    rw [bytes]
    exact List.length_take_le _ _
  have count : offered.length = needed.toNat := by
    rw [← found, slotsFrom, if_pos start, List.length_take, List.length_drop]
    omega
  rcases scatter_spec closed fits with ⟨filled, scattered, length, holds⟩
  let front := s.iov.take (ffree s).toNat
  let iov := s.iov.take (ffree s + needed).toNat
  have taken : iov.take (ffree s).toNat = front := by
    rw [List.take_take, min_eq_left (by omega)]
  have rest : iov.drop ((ffree s).toNat + filled.length) = [] := by
    rw [List.drop_eq_nil_iff, List.length_take]
    omega
  have width : (front.length : Int) = ffree s := by
    have size : front.length = (ffree s).toNat := List.length_take_of_le (by omega)
    omega
  have slots : iov.take (ffree s).toNat ++
    (filled ++ iov.drop ((ffree s).toNat + filled.length)) = front ++ filled := by
    rw [taken, rest, List.append_nil]
  rcases lands with ⟨quot, rem, k, divided, positive, index, sum, enough, edge⟩
  have inside : 0 < rem → k < filled.length := by
    intro partly
    rcases enough partly with ⟨slot, here, -⟩
    rw [length]
    exact (List.getElem?_eq_some_iff.mp here).1
  have total : ((offered.take k).map Iovec.iovLen).sum + rem.toNat = (incoming sys offered env).length := by
    clear enough edge holds inside
    omega
  let middle : World E := ⟨{ s with iov := front ++ filled }, env'⟩
  have lands : middle.stream.eod.idx + quot = front.length + k := by
    rw [width]
    exact index
  rcases arrive_spec (w := middle) (n := (incoming sys offered env).length) rfl divided positive lands inside with
    ⟨next, arrived, whole⟩
  refine ⟨next, ?_, ?_⟩
  · rw [receive, ← bytes]
    simp only [if_neg nonempty, bind, Except.bind, scattered]
    change arrive _ ⟨{ s with iov := iov.take (ffree s).toNat ++
      (filled ++ iov.drop ((ffree s).toNat + filled.length)) }, env'⟩ = _
    rw [slots]
    exact arrived
  · have held := holds k rem.toNat total fun partly => by
      rcases enough (Int.lt_toNat.mp partly) with ⟨slot, here, below⟩
      exact ⟨slot, here, Int.toNat_le.mpr below⟩
    rw [whole, held]
    exact congrArg (fun before => before ++ _) (flatMap_ffree low nonneg edge)

theorem read_served {needed sz : Int} {offered : List Iovec} (size : 0 ≤ sz) (nonneg : 0 ≤ w.stream.eod.offt)
    (asked : slotsNeeded sz w.stream.growsz = .ok needed) (few : needed < sys.iovMax) (wanted : 0 < needed)
    (low : 0 ≤ w.stream.eod.idx) (there : ffree w.stream + needed ≤ w.stream.iov.length)
    (found : slotsFrom (ffree w.stream) needed w.stream.iov = offered) (closed : ∀ slot ∈ offered, slot.Closed)
    (lands : incoming sys offered w.env = [] ∨ Landing (incoming sys offered w.env).length offered w.stream) :
    Appends sys sz w := by
  let s : Mnvbytestream := { w.stream with iov := w.stream.iov.take (ffree w.stream + needed).toNat }
  have order : w.stream.eod.idx ≤ ffree w.stream := by
    rw [ffree, Mnvbytestream.part]
    split <;> omega
  have made : offerSlots sys needed w = .ok (offered, ⟨s, w.env⟩) := by
    rw [offerSlots_there low wanted there, found]
  have offer : offers sys sz w = .ok (offered, ⟨s, w.env⟩) := by
    rw [offers, asked]
    exact (if_pos ⟨wanted, few⟩).trans made
  have run : vbytestreamRead sys sz w = receive offered (sys.readv (room offered) w.env) s := by
    have proceeds : ¬ (needed = 0 ∨ sys.iovMax ≤ needed) := by omega
    have within : ¬ (w.stream.iov.length : Int) < w.stream.eod.idx := by omega
    rw [vbytestreamRead, if_neg (not_lt.mpr size), asked]
    simp only [bind, Except.bind, if_neg proceeds, if_neg within, if_pos wanted, made]
  have kept : content s = content w.stream := contentFrom_take 0 (by omega)
  have used : ∀ slot ∈ offered, slot.iovBase ≠ none := fun slot inside => (closed slot inside).used
  rw [Appends, run]
  cases answer : sys.readv (room offered) w.env with
  | mk got env =>
      cases got with
      | none =>
          refine ⟨-1, ⟨s, env⟩, offered, ⟨s, w.env⟩, rfl, offer, used, fun wrong => ?_, fun _ => ⟨kept, rfl, rfl⟩⟩
          exact absurd wrong (by decide)
      | some got =>
          by_cases nothing : incoming sys offered w.env = []
          · have empty : got.take (room offered) = [] := by
              rwa [incoming, answer] at nothing
            refine ⟨0, ⟨s, env⟩, offered, ⟨s, w.env⟩, ?_, offer, used, fun wrong => absurd wrong (lt_irrefl _),
              fun _ => ⟨kept, rfl, rfl⟩⟩
            rw [receive]
            exact if_pos empty
          · rcases receive_closed nonneg low wanted there found closed answer nothing (lands.resolve_left nothing) with
              ⟨next, received, whole⟩
            have positive := List.length_pos_of_ne_nil nothing
            exact ⟨_, next, offered, ⟨s, w.env⟩, received, offer, used, fun _ => ⟨rfl, whole⟩, fun wrong => by omega⟩

theorem offers_refused {needed sz : Int} (asked : slotsNeeded sz w.stream.growsz = .ok needed)
    (refused : ¬ (0 < needed ∧ needed < sys.iovMax)) : offers sys sz w = .ok ([], w) := by
  rw [offers, asked]
  simp only [bind, Except.bind]
  rw [if_neg refused]
  rfl

/-- A call that offers nothing. -/
theorem appends_refused {answer sz : Int} (run : vbytestreamRead sys sz w = .ok (answer, w))
    (offer : offers sys sz w = .ok ([], w)) (failed : answer ≤ 0) : Appends sys sz w :=
  ⟨answer, w, [], w, run, offer, by simp, fun wrong => absurd wrong (not_lt.mpr failed), fun _ => ⟨rfl, rfl, rfl⟩⟩

theorem read_refused {needed sz : Int} (size : 0 ≤ sz) (asked : slotsNeeded sz w.stream.growsz = .ok needed)
    (refused : needed = 0 ∨ sys.iovMax ≤ needed) : Appends sys sz w := by
  have run : vbytestreamRead sys sz w = .ok (-1, w) := by
    rw [vbytestreamRead, if_neg (not_lt.mpr size), asked]
    simp only [bind, Except.bind]
    rw [if_pos refused]
    rfl
  apply appends_refused run _ (by decide)
  apply offers_refused asked
  omega

theorem read_prepared {sz : Int} (prepared : Prepared sys sz w) : Appends sys sz w := by
  rcases prepared with ⟨size, nonneg, needed, asked, none | many | ⟨below, within⟩ |
    ⟨wanted, low, there, offered, found, closed, lands⟩⟩
  · exact read_refused size asked (.inl none)
  · exact read_refused size asked (.inr many)
  · by_cases refused : needed = 0 ∨ sys.iovMax ≤ needed
    · exact read_refused size asked refused
    · have run : vbytestreamRead sys sz w = .ok (0, w) := by
        rw [vbytestreamRead, if_neg (not_lt.mpr size), asked]
        simp only [bind, Except.bind]
        rw [if_neg refused, if_neg (not_lt.mpr within), if_neg below.not_gt]
        rfl
      apply appends_refused run _ le_rfl
      apply offers_refused asked
      omega
  · rcases lt_or_ge needed sys.iovMax with few | many
    · exact read_served size nonneg asked few wanted low there found closed lands
    · exact read_refused size asked (.inr many)

/-- Two bytes come in whenever there is room for them. -/
def pairSystem : System Unit where
  iovMax := 1024
  malloc _ env := (fun _ => 88, env)
  readv _ env := (some [1, 2], env)
  writev _ env := (none, env)

end MnCommon.Vbytestream
