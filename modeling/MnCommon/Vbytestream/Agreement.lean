import MnCommon.Vbytestream.Write
import MnCommon.Bytestream.Append

/-! The same pieces in a vectored stream and in a flat one. -/

namespace MnCommon.Vbytestream

open Memory (Fault Along execute execute_step)
open Bytestream (Text toSize)

/-- A formatted piece and the size that is passed with it, for which memory can be had. -/
structure LimitedPiece where
  text : Text
  limit : UInt64
  nonempty : text.chars ≠ []
  short : text.chars.length < limit.toNat
  creatable : Creatable limit.toNat

def LimitedPiece.vectored (piece : LimitedPiece) : EditOp := .nprintf piece.limit.toInt64 piece.text

def LimitedPiece.flat (piece : LimitedPiece) : Bytestream.AppendOp := .nprintf piece.limit piece.text

variable {E F : Type}

/-- A descriptor that takes everything, and keeps it. -/
def System.collecting (sys : System E) : System (E × List UInt8) where
  iovMax := sys.iovMax
  malloc size env := ((sys.malloc size env.1).1, (sys.malloc size env.1).2, env.2)
  readv size env := ((sys.readv size env.1).1, (sys.readv size env.1).2, env.2)
  writev bytes env := (some bytes.length, (env.1, env.2 ++ bytes))

def collectingFlat (sys : Bytestream.System F) : Bytestream.System (F × List UInt8) where
  pagesize := sys.pagesize
  pagesize_pos := sys.pagesize_pos
  realloc size env := ((sys.realloc size env.1).1, (sys.realloc size env.1).2, env.2)
  junk env := sys.junk env.1
  read size env := ((sys.read size env.1).1, (sys.read size env.1).2, env.2)
  recv size env := ((sys.recv size env.1).1, (sys.recv size env.1).2, env.2)
  write bytes _ env := (some bytes.length, (env.1, env.2 ++ bytes))
  send bytes _ env := (some bytes.length, (env.1, env.2 ++ bytes))

/-- Both streams take the pieces, and if the segments are few enough one write of each
puts out the same bytes. -/
def Agree (sys : System E) (flat : Bytestream.System F) (pieces : List LimitedPiece) (w : World E)
    (v : Bytestream.World F) : Prop :=
  ∃ answers w' v', execute (edit sys) (pieces.map LimitedPiece.vectored) w = .ok (answers, w') ∧
    Bytestream.appendAll flat (pieces.map LimitedPiece.flat) v = .ok v' ∧
    (w'.stream.eod.idx + w'.stream.part < sys.iovMax →
      ∃ answer after, vbytestreamWrite sys.collecting ⟨w'.stream, (w'.env, [])⟩ = .ok (answer, after) ∧
        after.env.2 = (Bytestream.bytestreamWrite (collectingFlat flat) (toSize v'.stream.eod)
          ⟨v'.stream, (v'.env, [])⟩).2.env.2)

variable {sys : System E} {flat : Bytestream.System F} {w : World E} {v : Bytestream.World F} {s : Mnvbytestream}
  {pieces : List LimitedPiece}

theorem LimitedPiece.toInt_limit (piece : LimitedPiece) : piece.limit.toInt64.toInt = piece.limit.toNat := by
  have small := piece.creatable.2
  have bits : piece.limit.toInt64.toInt = piece.limit.toBitVec.toInt := rfl
  rw [bits, BitVec.toInt_eq_toNat_of_lt]
  · rfl
  · rw [UInt64.toNat_toBitVec]
    omega

theorem Grown.refl (good : Good s) : Grown s s [] := ⟨rfl, le_rfl, fun _ _ => (List.append_nil _).symm, good⟩

/-- Behind some data every piece finds a place. -/
theorem piece_fine (piece : LimitedPiece) (good : Good w.stream) (filled : 0 < w.stream.eod.offt) :
    Fine piece.vectored w := by
  rcases good.clean (fun wrong => filled.ne' wrong.2) with ⟨full, tail, clean⟩
  rw [LimitedPiece.vectored, Fine, piece.toInt_limit]
  cases shape : clean.tail with
  | fresh empty unused => exact absurd empty filled.ne'
  | filling b some more small unused =>
      rw [if_pos (allocated_end clean.split clean.idx (Option.some_ne_none b))]
      exact ⟨some, .inr piece.creatable⟩

variable (sys) in
theorem piece_step (piece : LimitedPiece) (good : Good w.stream) (fine : Fine piece.vectored w) :
    ∃ answer next, edit sys piece.vectored w = .ok (answer, next) ∧
      Grown w.stream next.stream piece.text.chars ∧ 0 < next.stream.eod.offt := by
  rcases nprintf_fine sys good fine with ⟨answer, next, run, grown, taken⟩
  have positive := List.length_pos_of_ne_nil piece.nonempty
  have short := piece.short
  have limit := piece.toInt_limit
  rcases taken (by omega) with ⟨all, offt⟩
  rw [if_pos (by omega)] at grown
  exact ⟨answer, next, run, grown, by omega⟩

variable (sys) in
theorem piece_unfine (piece : LimitedPiece) (good : Good w.stream) (unfine : ¬ Fine piece.vectored w) :
    ∃ fault, edit sys piece.vectored w = .error fault :=
  nprintf_unfine sys good unfine

variable (sys) in
theorem pieces_run (good : Good w.stream) (filled : 0 < w.stream.eod.offt) :
    ∃ answers final, execute (edit sys) (pieces.map LimitedPiece.vectored) w = .ok (answers, final) ∧
      Grown w.stream final.stream (pieces.flatMap fun piece => piece.text.chars) ∧ 0 < final.stream.eod.offt := by
  induction pieces generalizing w with
  | nil => exact ⟨[], w, rfl, .refl good, filled⟩
  | cons piece pieces ih =>
      rcases piece_step sys piece good (piece_fine piece good filled) with ⟨answer, next, run, grown, more⟩
      rcases ih grown.good more with ⟨answers, final, later, grown', still⟩
      exact ⟨answer :: answers, final, execute_step run later, grown.trans grown', still⟩

/-- A flat stream that is granted its memory. -/
theorem flat_run (cursors : Bytestream.Cursors v.stream)
    (granted : Along (Bytestream.append flat) (fun op v => Bytestream.accepts flat op v = true)
      (pieces.map LimitedPiece.flat) v) :
    ∃ final, Bytestream.appendAll flat (pieces.map LimitedPiece.flat) v = .ok final ∧
      Bytestream.Cursors final.stream ∧ final.stream.pos = v.stream.pos ∧
      Bytestream.content final.stream =
        Bytestream.content v.stream ++ pieces.flatMap fun piece => piece.text.chars := by
  induction pieces generalizing v with
  | nil => exact ⟨v, rfl, cursors, rfl, (List.append_nil _).symm⟩
  | cons piece pieces ih =>
      rcases granted with ⟨accepted, rest⟩
      have small := piece.creatable.2
      have fine : Bytestream.Appendable v.stream := ⟨cursors.buffered, cursors.order⟩
      have roomy : Bytestream.Roomy piece.flat v := by
        apply Bytestream.roomy_of_limit fine cursors.size
        intro sz text same
        rcases same with same | same
        · cases same
          omega
        · cases same
      have law : Bytestream.Law flat piece.flat v := (Bytestream.law_iff_roomy piece.flat v fine).mp roomy
      rcases law with ⟨answer, next, run, pos, taken, -⟩
      rcases Bytestream.appendFormatted_cursors cursors roomy with ⟨answer', next', run', kept⟩
      rcases Prod.mk.inj (Except.ok.inj (run.symm.trans run')) with ⟨-, rfl⟩
      rcases ih kept (rest answer next run) with ⟨final, later, last, pos', whole⟩
      refine ⟨final, ?_, last, pos'.trans pos, ?_⟩
      · rw [List.map_cons, Bytestream.appendAll, run]
        exact later
      · rw [whole, (taken accepted).1, List.append_assoc, List.flatMap_cons]
        rfl

/-- What one write of everything puts out. -/
theorem flat_output (cursors : Bytestream.Cursors v.stream) (start : v.stream.pos = 0) :
    (Bytestream.bytestreamWrite (collectingFlat flat) (toSize v.stream.eod) ⟨v.stream, (v.env, [])⟩).2.env.2 =
      Bytestream.content v.stream := by
  have nonneg := cursors.buffered.nonneg
  have inside := cursors.buffered.inside
  have memory := cursors.buffered.memory
  have high := cursors.buffered.high
  have size : (toSize v.stream.eod : Int) = v.stream.eod := Bytestream.toSize_of_range nonneg (by omega)
  have all : toSize v.stream.eod = v.stream.eod.toNat := by omega
  have signed : Bytestream.toSigned (toSize v.stream.eod) = v.stream.eod := by
    rw [size]
    exact Bytestream.toSigned_of_range (by omega) (by omega)
  rw [Bytestream.bytestreamWrite]
  simp only [signed, start, zero_add, lt_irrefl, if_false]
  change [] ++ Bytestream.outgoing v.stream (toSize v.stream.eod) = _
  rw [Bytestream.outgoing, start, List.nil_append, all]
  rfl

theorem vectored_output {full tail : List Iovec} (laid : Laid w.stream full tail) (start : w.stream.pos.idx = 0)
    (few : w.stream.eod.idx + w.stream.part < sys.iovMax) :
    ∃ answer after, vbytestreamWrite sys.collecting ⟨w.stream, (w.env, [])⟩ = .ok (answer, after) ∧
      after.env.2 = content w.stream := by
  have idx := laid.idx
  by_cases some : 0 < w.stream.eod.idx + w.stream.part
  · have sends : vbytestreamWrite sys.collecting ⟨w.stream, (w.env, [])⟩ = .ok (written (contentFrom 0 w.stream)
        w.stream (sys.collecting.writev (contentFrom 0 w.stream) (w.env, []))) :=
      write_laid _ (w := ⟨w.stream, (w.env, [])⟩) laid start (Nat.zero_le _)
        (by simpa only [start, sub_zero] using some)
        (by simpa only [start, sub_zero, System.collecting] using few)
    exact ⟨_, _, sends, List.nil_append _⟩
  · have part : w.stream.part = 0 ∨ w.stream.part = 1 := by
      rw [Mnvbytestream.part]
      split
      · exact .inr rfl
      · exact .inl rfl
    have empty : full = [] := List.eq_nil_of_length_eq_zero (by omega)
    have none : ¬ 0 < w.stream.eod.offt := by
      intro filled
      have one : w.stream.part = 1 := if_pos filled
      omega
    have zero : w.stream.eod.offt = 0 := le_antisymm (not_lt.mp none) laid.nonneg
    refine ⟨-1, ⟨w.stream, (w.env, [])⟩, ?_, ?_⟩
    · rw [vbytestreamWrite]
      simp only [start, sub_zero]
      exact if_pos (.inl (not_lt.mp some))
    · rw [content, contentFrom_eq laid.split laid.idx, empty, zero]
      rfl

theorem first_fine_iff {growsz iovreserve : Nat} (piece : LimitedPiece)
    (init : vbytestreamInit growsz iovreserve = .ok w.stream) :
    Fine piece.vectored w ↔ (piece.text.chars.length : Int) < toInt piece.limit.toNat := by
  have unused : ¬ Allocated w.stream.eod.idx w.stream := by
    rw [vbytestreamInit] at init
    split at init
    · rw [← Except.ok.inj init]
      exact fun used => used rfl
    · cases init
  have short := piece.short
  rw [LimitedPiece.vectored, Fine, if_neg unused, piece.toInt_limit]
  constructor
  · rintro ⟨-, room | whole⟩
    · exact room
    · rw [whole]
      omega
  · intro room
    exact ⟨piece.creatable, .inl room⟩

theorem flat_started {growsz : Int} {env : F} (nonneg : 0 ≤ growsz) (high : growsz < 2 ^ 63)
    (init : Bytestream.bytestreamInit flat growsz env = (true, v)) :
    Bytestream.Cursors v.stream ∧ v.stream.pos = 0 ∧ Bytestream.content v.stream = [] := by
  have fresh := (Bytestream.bytestreamInit_fresh init).1
  have cursors := Bytestream.Started.cursors (.init growsz env (by omega) high init) (fresh.step.symm ▸ nonneg)
  exact ⟨cursors, fresh.pos, fresh.content_nil⟩

variable (sys) in
theorem vectored_run {growsz iovreserve : Nat} (init : vbytestreamInit growsz iovreserve = .ok w.stream)
    (first : ∀ piece ∈ pieces.head?, (piece.text.chars.length : Int) < toInt piece.limit.toNat) :
    ∃ answers final, execute (edit sys) (pieces.map LimitedPiece.vectored) w = .ok (answers, final) ∧
      Grown w.stream final.stream (pieces.flatMap fun piece => piece.text.chars) := by
  have good := init_good init
  cases pieces with
  | nil => exact ⟨[], w, rfl, .refl good⟩
  | cons piece pieces =>
      have fine := (first_fine_iff piece init).mpr (first piece rfl)
      rcases piece_step sys piece good fine with ⟨answer, next, run, grown, filled⟩
      rcases pieces_run sys grown.good filled with ⟨answers, final, later, grown', -⟩
      exact ⟨answer :: answers, final, execute_step run later, grown.trans grown'⟩

/-- The two put out the same, exactly if the size that comes with the first piece still
has room for it as an `int`. -/
theorem outputs_agree_iff {growsz : Int} {vgrowsz iovreserve : Nat} {env : F} (nonneg : 0 ≤ growsz)
    (high : growsz < 2 ^ 63) (init : vbytestreamInit vgrowsz iovreserve = .ok w.stream)
    (flatInit : Bytestream.bytestreamInit flat growsz env = (true, v))
    (granted : Along (Bytestream.append flat) (fun op v => Bytestream.accepts flat op v = true)
      (pieces.map LimitedPiece.flat) v) :
    Agree sys flat pieces w v ↔
      ∀ piece ∈ pieces.head?, (piece.text.chars.length : Int) < toInt piece.limit.toNat := by
  have good := init_good init
  have fresh : w.stream.pos.idx = 0 ∧ content w.stream = [] := by
    rw [vbytestreamInit] at init
    split at init
    · rw [← Except.ok.inj init]
      exact ⟨rfl, rfl⟩
    · cases init
  constructor
  · rintro ⟨answers, w', v', run, -⟩ piece here
    cases pieces with
    | nil => cases here
    | cons head pieces =>
        have same : head = piece := Option.some.inj here
        rw [← same]
        by_contra long
        have unfine : ¬ Fine head.vectored w := fun fine => long ((first_fine_iff head init).mp fine)
        rcases piece_unfine sys head good unfine with ⟨fault, stuck⟩
        rw [List.map_cons, execute, stuck] at run
        cases run
  · intro first
    rcases vectored_run sys init first with ⟨answers, w', run, grown⟩
    rcases flat_started nonneg high flatInit with ⟨cursors, start, empty⟩
    rcases flat_run cursors granted with ⟨v', flatRun, kept, pos, whole⟩
    refine ⟨answers, w', v', run, flatRun, fun few => ?_⟩
    rcases grown.good.laid with ⟨full, tail, laid⟩
    have idx : w'.stream.pos.idx = 0 := by rw [grown.pos, fresh.1]
    rcases vectored_output laid idx few with ⟨answer, after, sends, output⟩
    refine ⟨answer, after, sends, ?_⟩
    rw [output, flat_output kept (pos.trans start), content_grown good grown, whole, fresh.2, empty]

/-- One letter, with a limit of two gigabytes. -/
def hugeLimit : LimitedPiece where
  text := letterA
  limit := 2147483648
  nonempty := by decide
  short := by decide
  creatable := by decide

/-- One letter, with a limit of four bytes. -/
def smallLimit : LimitedPiece where
  text := letterA
  limit := 4
  nonempty := by decide
  short := by decide
  creatable := by decide

theorem small_limit_agrees :
    Agree deafSystem Bytestream.deafSystem [smallLimit] ⟨freshStream, ()⟩ ⟨Bytestream.emptyStream, ()⟩ ↔
      ∀ piece ∈ [smallLimit].head?, (piece.text.chars.length : Int) < toInt piece.limit.toNat :=
  have fresh : vbytestreamInit 4 0 = .ok freshStream := rfl
  have flat : Bytestream.bytestreamInit Bytestream.deafSystem 8 () = (true, ⟨Bytestream.emptyStream, ()⟩) := rfl
  outputs_agree_iff (by decide) (by decide) fresh flat ⟨by decide, fun _ _ _ => trivial⟩

/-- The vectored stream does not even take the letter. -/
theorem huge_limit_disagrees :
    ¬ Agree deafSystem Bytestream.deafSystem [hugeLimit] ⟨freshStream, ()⟩ ⟨Bytestream.emptyStream, ()⟩ := by
  rintro ⟨answers, w', v', run, -⟩
  have fresh : vbytestreamInit 4 0 = .ok (⟨freshStream, ()⟩ : World Unit).stream := rfl
  have unfine : ¬ Fine hugeLimit.vectored (⟨freshStream, ()⟩ : World Unit) := by
    intro fine
    have first := (first_fine_iff hugeLimit fresh).mp fine
    exact absurd first (by decide)
  rcases piece_unfine deafSystem hugeLimit (init_good fresh) unfine with ⟨fault, stuck⟩
  rw [List.map_cons, execute, stuck] at run
  cases run

end MnCommon.Vbytestream
