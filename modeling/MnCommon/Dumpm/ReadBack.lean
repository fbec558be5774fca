import MnCommon.Dumpm.Model
import MnCommon.JsonWriter.Documents
import MnCommon.Texts.Table

/-! What the dumps of `dumpm.c` say: they are read back to the bytes and bits that have been dumped. -/

namespace MnCommon.Dumpm

open Bytestream (AppendOp Extended Piece System Text World append appendAll bytestreamNprintf toSigned_of_range)
open JsonWriter (Ample Appends Generous cat_appends formatted nprintf_appends)
open Memory (Fault)
open Texts (Line Marks)

/-- The marks of all dumps. -/
def marks : Marks UInt8 := ⟨32, 124, 10, by decide⟩

/-- No mark of a table. -/
def Plain (c : UInt8) : Prop := c ≠ 32 ∧ c ≠ 124 ∧ c ≠ 10

instance (c : UInt8) : Decidable (Plain c) := inferInstanceAs (Decidable (_ ∧ _))

variable {m bytes chars rest label text : List UInt8} {start todo i fuel : Nat} {n l addr : UInt64} {c : UInt8}

/-- What holds of all numbers below 256 holds of all bytes. -/
theorem of_bytes {P : UInt8 → Prop} (all : ∀ k : Fin 256, P (UInt8.ofNat k)) (c : UInt8) : P c := by
  have same : UInt8.ofNat c.toNat = c := UInt8.ofNat_toNat
  exact same ▸ all ⟨c.toNat, c.toNat_lt⟩

theorem shown_ne (c : UInt8) : shown c ≠ 10 := @of_bytes (fun c => shown c ≠ 10) (by decide +kernel) c

theorem picture_undivided (bytes : List UInt8) : marks.newline ∉ bytes.map shown := by
  intro inside
  rcases List.mem_map.mp inside with ⟨c, -, same⟩
  exact shown_ne c same

theorem hexDigit_plain (small : i < 16) : Plain (hexDigit i) := by
  have table : ∀ k : Fin 16, Plain (hexDigit k) := by decide
  exact table ⟨i, small⟩

theorem hex2_plain (c : UInt8) : ∀ x ∈ hex2 c, Plain x := by
  have small := c.toNat_lt
  have high : c.toNat / 16 < 16 := by omega
  have low : c.toNat % 16 < 16 := by omega
  exact List.forall_mem_cons.mpr ⟨hexDigit_plain high, List.forall_mem_singleton.mpr (hexDigit_plain low)⟩

theorem hex16_plain (addr : UInt64) : ∀ x ∈ hex16 addr, Plain x := by
  intro x inside
  rcases List.mem_map.mp inside with ⟨k, -, rfl⟩
  exact hexDigit_plain (Nat.mod_lt _ (by decide))

theorem length_hex16 (addr : UInt64) : (hex16 addr).length = 16 := by rw [hex16, List.length_map, List.length_range]

theorem readAt_ok (inside : start + i ≤ m.length) : readAt m start i = .ok ((m.drop start).take i) := if_pos inside

section Hexadecimal

/-- The cells of a line with their blanks. -/
def hexCells (bytes : List UInt8) (missing : Nat) : List UInt8 :=
  bytes.flatMap (fun c => 32 :: hex2 c) ++ List.replicate (3 * missing) 32

theorem hexCells_filter (bytes : List UInt8) (missing : Nat) :
    (hexCells bytes missing).filter (fun c => c ≠ marks.blank) = bytes.flatMap hex2 := by
  have none : (List.replicate (3 * missing) (32 : UInt8)).filter (fun c => c ≠ marks.blank) = [] :=
    List.filter_eq_nil_iff.mpr fun c inside => by simp [List.eq_of_mem_replicate inside, marks]
  rw [hexCells, List.filter_append, none, List.append_nil]
  induction bytes with
  | nil => rfl
  | cons c bytes ih =>
      have kept : (hex2 c).filter (fun c => c ≠ marks.blank) = hex2 c :=
        List.filter_eq_self.mpr fun x inside => decide_eq_true (hex2_plain c x inside).1
      have blank : (32 :: hex2 c).filter (fun c => c ≠ marks.blank) = (hex2 c).filter fun c => c ≠ marks.blank := rfl
      rw [List.flatMap_cons, List.flatMap_cons, List.filter_append, ih, blank, kept]

theorem hexCells_plain (bytes : List UInt8) (missing : Nat) :
    ∀ x ∈ hexCells bytes missing, x ≠ marks.bar ∧ x ≠ marks.newline := by
  intro x inside
  rw [hexCells, List.mem_append, List.mem_flatMap] at inside
  rcases inside with ⟨c, -, cell⟩ | blank
  · rcases List.mem_cons.mp cell with rfl | digit
    · decide
    · exact (hex2_plain c x digit).2
  · rw [List.eq_of_mem_replicate blank]
    decide

/-- A line of a dump in hexadecimal. -/
def hexLine (addr : UInt64) (bytes : List UInt8) (missing : Nat) : Line UInt8 :=
  ⟨hex16 addr ++ [58], hexCells bytes missing, bytes.map shown⟩

theorem hexLine_proper (addr : UInt64) (bytes : List UInt8) (missing : Nat) :
    marks.Proper 17 (hexLine addr bytes missing) where
  wide := by rw [hexLine, List.length_append, length_hex16, List.length_singleton]
  label := by
    intro inside
    rcases List.mem_append.mp inside with digit | colon
    · exact (hex16_plain addr _ digit).2.2 rfl
    · exact absurd (List.mem_singleton.mp colon) (by decide)
  cells := fun inside => (hexCells_plain bytes missing _ inside).2 rfl
  picture := picture_undivided bytes
  unbarred := fun inside => (hexCells_plain bytes missing _ inside).1 rfl

theorem chars_hexLine (addr : UInt64) (bytes : List UInt8) (missing : Nat) :
    hex16 addr ++ 58 :: (hexCells bytes missing ++ 124 :: bytes.map shown) =
      marks.chars (hexLine addr bytes missing) := by
  rw [Marks.chars, hexLine, List.append_assoc, List.singleton_append]
  rfl

/-- A line is read back. -/
theorem readCells_hexLine (addr : UInt64) (bytes : List UInt8) (missing : Nat) (rest : List UInt8) :
    marks.readCells 17 (marks.chars (hexLine addr bytes missing) ++ 10 :: rest) =
      bytes.flatMap hex2 ++ marks.readCells 17 rest := by
  have proper := hexLine_proper addr bytes missing
  have apart := @Marks.readCells_line _ marks _ 17 _ rest proper.undivided
  rwa [proper.lineCells_chars, hexLine, hexCells_filter] at apart

/-- The text of a line behind its address. -/
theorem dumpl_ok (narrow : n ≤ l) (inside : start + n.toNat ≤ m.length) :
    dumpl m start n l = .ok (hexCells ((m.drop start).take n.toNat) (l.toNat - n.toNat) ++
      124 :: ((m.drop start).take n.toNat).map shown) := by
  rw [dumpl, if_neg (UInt64.not_lt.mpr narrow), readAt_ok inside]
  rfl

theorem dumpLines_readBack (rest : List UInt8) (inside : (i + todo) * l.toNat ≤ m.length) :
    ∃ text, dumpLines addr m l todo i = .ok text ∧
      marks.readCells 17 (text ++ rest) =
        ((m.drop (i * l.toNat)).take (todo * l.toNat)).flatMap hex2 ++ marks.readCells 17 rest := by
  induction todo generalizing i with
  | zero => exact ⟨[], rfl, by rw [Nat.zero_mul, List.take_zero]; rfl⟩
  | succ todo ih =>
      have same : i + 1 + todo = i + (todo + 1) := by omega
      have first : i * l.toNat + l.toNat ≤ m.length := by
        rw [← Nat.succ_mul]
        exact (Nat.mul_le_mul_right _ (by omega)).trans inside
      rcases @ih (i + 1) (same ▸ inside) with ⟨text, run, read⟩
      refine ⟨marks.chars (hexLine (addr + UInt64.ofNat i * l) ((m.drop (i * l.toNat)).take l.toNat) 0) ++ 10 :: text,
        ?_, ?_⟩
      · rw [dumpLines, dumpl_ok (UInt64.le_refl l) first, run, Nat.sub_self, ← chars_hexLine]
        rfl
      · have whole : (m.drop (i * l.toNat)).take ((todo + 1) * l.toNat) =
            (m.drop (i * l.toNat)).take l.toNat ++ (m.drop ((i + 1) * l.toNat)).take (todo * l.toNat) := by
          rw [Nat.succ_mul, Nat.succ_mul, Nat.add_comm (todo * l.toNat), List.take_add, List.drop_drop]
        rw [List.append_assoc, List.cons_append, readCells_hexLine, read, whole, List.flatMap_append, List.append_assoc]

/-- The value of a digit. -/
def hexValue (c : UInt8) : Nat := if c < 58 then c.toNat - 48 else c.toNat - 87

/-- The bytes that pairs of digits stand for. -/
def unhex : List UInt8 → List UInt8
  | high :: low :: rest => UInt8.ofNat (16 * hexValue high + hexValue low) :: unhex rest
  | _ => []

/-- The bytes that a dump in hexadecimal shows. -/
def readDump (text : List UInt8) : List UInt8 := unhex (marks.readCells 17 text)

theorem hexValue_hexDigit (small : i < 16) : hexValue (hexDigit i) = i := by
  have table : ∀ k : Fin 16, hexValue (hexDigit k) = k := by decide
  exact table ⟨i, small⟩

theorem unhex_hex (bytes : List UInt8) : unhex (bytes.flatMap hex2) = bytes := by
  induction bytes with
  | nil => rfl
  | cons c bytes ih =>
      have small := c.toNat_lt
      have whole : 16 * (c.toNat / 16) + c.toNat % 16 = c.toNat := Nat.div_add_mod _ 16
      rw [List.flatMap_cons, hex2, List.cons_append, List.cons_append, List.nil_append, unhex,
        hexValue_hexDigit (by omega), hexValue_hexDigit (by omega), whole, UInt8.ofNat_toNat, ih]

theorem toInt_small (small : n.toNat < 2 ^ 31) : toInt n = n.toNat := Int.bmod_eq_of_le (by omega) (by omega)

theorem div_small (positive : 0 < l) (small : l.toNat < 2 ^ 31) (small' : n.toNat < 2 ^ 31) :
    div (toInt n) (toInt l) = .ok (((n.toNat / l.toNat : Nat) : Int), ((n.toNat % l.toNat : Nat) : Int)) := by
  have some : 0 < l.toNat := UInt64.lt_iff_toNat_lt.mp positive
  have proper : ¬ ((l.toNat : Int) = 0 ∨ (n.toNat : Int) = -2 ^ 31 ∧ (l.toNat : Int) = -1) := by omega
  rw [toInt_small small, toInt_small small', div, if_neg proper, Int.ofNat_tdiv, Int.ofNat_tmod]

theorem readCells_newlines : marks.readCells 17 [10, 10] = [] := by
  have empty : [10, 10] = marks.newline :: marks.newline :: [] := rfl
  rw [empty, Marks.readCells_empty, Marks.readCells_empty, Marks.readCells_nil]

/-- The dump of a memory of which the sizes fit into an `int` shows its bytes. -/
theorem dumpm_shows (addr : UInt64) (positive : 0 < l) (small : l.toNat < 2 ^ 31) (small' : n.toNat < 2 ^ 31)
    (inside : n.toNat ≤ m.length) : ∃ text, dumpm addr m n l = .ok text ∧ readDump text = m.take n.toNat := by
  have quotient := Nat.div_add_mod n.toNat l.toNat
  have remainder : n.toNat % l.toNat < l.toNat := Nat.mod_lt _ (UInt64.lt_iff_toNat_lt.mp positive)
  have parts : n.toNat / l.toNat * l.toNat + n.toNat % l.toNat = n.toNat := by rw [Nat.mul_comm, quotient]
  have full : (0 + n.toNat / l.toNat) * l.toNat ≤ m.length := by
    rw [Nat.zero_add]
    omega
  rw [dumpm, div_small positive small small']
  dsimp only [bind, Except.bind, Int.toNat_natCast]
  by_cases even : n.toNat % l.toNat = 0
  · rcases @dumpLines_readBack m _ 0 l addr [10, 10] full with ⟨text, run, read⟩
    refine ⟨text ++ [10, 10], ?_, ?_⟩
    · rw [run]
      exact if_neg (by omega)
    · rw [readDump, read, readCells_newlines, List.append_nil, unhex_hex, Nat.zero_mul, List.drop_zero]
      congr 1
      omega
  · -- the last line is not full
    have count : (UInt64.ofNat (n.toNat % l.toNat)).toNat = n.toNat % l.toNat :=
      UInt64.toNat_ofNat_of_lt' (remainder.trans l.toNat_lt)
    have narrow : UInt64.ofNat (n.toNat % l.toNat) ≤ l := UInt64.le_iff_toNat_le.mpr (by omega)
    have within : n.toNat / l.toNat * l.toNat + (UInt64.ofNat (n.toNat % l.toNat)).toNat ≤ m.length := by omega
    have last := dumpl_ok narrow within
    rw [count] at last
    let line := hexLine (addr + UInt64.ofNat (n.toNat / l.toNat) * l)
      ((m.drop (n.toNat / l.toNat * l.toNat)).take (n.toNat % l.toNat)) (l.toNat - n.toNat % l.toNat)
    rcases @dumpLines_readBack m _ 0 l addr (marks.chars line ++ [10, 10]) full with ⟨text, run, read⟩
    refine ⟨text ++ marks.chars line ++ [10, 10], ?_, ?_⟩
    · rw [run, ← chars_hexLine]
      dsimp only
      rw [if_pos (by omega), last]
      dsimp only [bind, Except.bind, pure, Except.pure]
      rw [List.append_assoc text]
    · have ended : marks.readCells 17 [10] = [] := by
        have empty : [10] = marks.newline :: [] := rfl
        rw [empty, Marks.readCells_empty, Marks.readCells_nil]
      rw [readDump, List.append_assoc, read, readCells_hexLine, ended, List.append_nil, ← List.flatMap_append,
        unhex_hex, Nat.zero_mul, List.drop_zero, ← List.take_add, parts]

end Hexadecimal

section Stream

/-- The bytes of the calls, one after the other. -/
def written (calls : List AppendOp) : List UInt8 := calls.flatMap AppendOp.bytes

theorem written_append (first second : List AppendOp) : written (first ++ second) = written first ++ written second :=
  List.flatMap_append

theorem written_cons (call : AppendOp) (calls : List AppendOp) : written (call :: calls) = call.bytes ++ written calls :=
  List.flatMap_cons

theorem format_chars (short : chars.length ≤ 64) : (format chars).chars = chars := List.take_of_length_le short

theorem written_cells (bytes : List UInt8) :
    written (bytes.map fun c => .nprintf 8 (format (32 :: hex2 c))) = bytes.flatMap fun c => 32 :: hex2 c := by
  rw [written, List.flatMap_map]
  exact congrArg (fun f => bytes.flatMap f) (funext fun c => format_chars (by simp [hex2]))

theorem written_picture (bytes : List UInt8) :
    written (bytes.map fun c => .nprintf 2 (format [shown c])) = bytes.map shown := by
  rw [written, List.flatMap_map, List.map_eq_flatMap]
  exact congrArg (fun f => bytes.flatMap f) (funext fun c => format_chars (by simp))

theorem written_blanks (count : Nat) : written (List.replicate count (.cat blanks)) = List.replicate (3 * count) 32 := by
  induction count with
  | zero => rfl
  | succ count ih =>
      have more : 3 * (count + 1) = 3 + 3 * count := by omega
      rw [List.replicate_succ, written_cons, ih, more, List.replicate_add]
      rfl

/-- The calls for a line write what `dumpl` writes. -/
theorem bytestreamDumpl_written (m : List UInt8) (start : Nat) (n l : UInt64) :
    (bytestreamDumpl m start n l).map written = dumpl m start n l := by
  rw [bytestreamDumpl, dumpl]
  by_cases narrow : l < n
  · rw [if_pos narrow, if_pos narrow]
    rfl
  · rw [if_neg narrow, if_neg narrow]
    cases there : readAt m start n.toNat with
    | error fault => rfl
    | ok bytes =>
        refine congrArg Except.ok ?_
        rw [written_append, written_append, written_cells, written_blanks]
        by_cases some : 0 < n
        · rw [if_pos some, written_cons, written_picture]
          rfl
        · have zero : n.toNat = 0 := by
            have none : ¬ 0 < n.toNat := fun positive => some (UInt64.lt_iff_toNat_lt.mpr positive)
            omega
          rw [readAt, zero] at there
          split_ifs at there
          cases there
          rw [if_neg some, List.take_zero]
          rfl

theorem bytestreamDumpLines_written (addr : UInt64) (m : List UInt8) (l : UInt64) (todo i : Nat) :
    (bytestreamDumpLines addr m l todo i).map written = dumpLines addr m l todo i := by
  induction todo generalizing i with
  | zero => rfl
  | succ todo ih =>
      rw [bytestreamDumpLines, dumpLines, ← bytestreamDumpl_written, ← ih (i + 1)]
      cases bytestreamDumpl m (i * l.toNat) l l with
      | error fault => rfl
      | ok line =>
          cases bytestreamDumpLines addr m l todo (i + 1) with
          | error fault => rfl
          | ok rest =>
              refine congrArg Except.ok ?_
              have label := @format_chars (hex16 (addr + UInt64.ofNat i * l) ++ [58]) (by simp [length_hex16])
              rw [List.cons_append, written_cons, written_append, written_cons, AppendOp.bytes, label]
              simp only [List.append_assoc, List.cons_append, List.nil_append]
              rfl

/-- The calls for a dump write what `dumpm` writes, and the NUL of a string. -/
theorem bytestreamDumpmCalls_written (addr : UInt64) (m : List UInt8) (n l : UInt64) :
    (bytestreamDumpmCalls addr m n l).map written = (dumpm addr m n l).map (· ++ [0]) := by
  rw [bytestreamDumpmCalls, dumpm]
  cases div (toInt n) (toInt l) with
  | error fault => rfl
  | ok quotient =>
      rcases quotient with ⟨quot, rem⟩
      dsimp only [bind, Except.bind]
      rw [← bytestreamDumpLines_written, ← bytestreamDumpl_written]
      cases bytestreamDumpLines addr m l quot.toNat 0 with
      | error fault => rfl
      | ok lines =>
          dsimp only [Except.map]
          by_cases some : 0 < rem
          · rw [if_pos some, if_pos some]
            cases bytestreamDumpl m (quot.toNat * l.toNat) (UInt64.ofNat rem.toNat) l with
            | error fault => rfl
            | ok last =>
                refine congrArg Except.ok ?_
                have label := @format_chars (hex16 (addr + UInt64.ofNat quot.toNat * l) ++ [58]) (by simp [length_hex16])
                rw [written_append, written_append, written_cons, AppendOp.bytes, label]
                simp only [List.append_assoc, List.cons_append, List.nil_append]
                rfl
          · rw [if_neg some, if_neg some]
            refine congrArg Except.ok ?_
            rw [written_append, List.append_assoc]
            rfl

/-- A call with a limit that its text keeps to and that is not much larger. -/
inductive Measured : AppendOp → Prop where
  | nprintf (sz : UInt64) (text : Text) (below : text.chars.length < sz.toNat)
      (near : sz.toNat ≤ 8 * text.chars.length) : Measured (.nprintf sz text)
  | cat (piece : Piece) (short : piece.bytes.length < 2 ^ 31) : Measured (.cat piece)

theorem measured_format {sz : UInt64} (short : chars.length ≤ 64) (below : chars.length < sz.toNat)
    (near : sz.toNat ≤ 8 * chars.length) : Measured (.nprintf sz (format chars)) := by
  apply Measured.nprintf
  · rwa [format_chars short]
  · rwa [format_chars short]

theorem bytestreamDumpl_measured {calls : List AppendOp} (run : bytestreamDumpl m start n l = .ok calls) :
    ∀ call ∈ calls, Measured call := by
  have cell : ∀ c : UInt8, Measured (.nprintf 8 (format (32 :: hex2 c))) := fun c =>
    measured_format (by simp [hex2]) (by simp [hex2]) (by simp [hex2])
  have dot : ∀ c : UInt8, Measured (.nprintf 2 (format [c])) := fun c =>
    measured_format (by simp) (by simp) (by simp)
  rw [bytestreamDumpl] at run
  by_cases narrow : l < n
  · rw [if_pos narrow] at run
    cases run
  · rw [if_neg narrow] at run
    rcases Memory.of_bind_ok run with ⟨bytes, -, rest⟩
    rw [← Except.ok.inj rest]
    intro call inside
    rcases List.mem_append.mp inside with cells | picture
    · rcases List.mem_append.mp cells with byte | blank
      · rcases List.mem_map.mp byte with ⟨c, -, rfl⟩
        exact cell c
      · rw [List.eq_of_mem_replicate blank]
        exact .cat blanks (by decide)
    · by_cases some : 0 < n
      · rw [if_pos some] at picture
        rcases List.mem_cons.mp picture with rfl | byte
        · exact .cat bar (by decide)
        · rcases List.mem_map.mp byte with ⟨c, -, rfl⟩
          exact dot (shown c)
      · rw [if_neg some, List.mem_singleton] at picture
        rw [picture]
        exact dot 124

theorem label_measured (addr : UInt64) : Measured (.nprintf 32 (format (hex16 addr ++ [58]))) :=
  measured_format (by simp [length_hex16]) (by simp [length_hex16]) (by simp [length_hex16])

theorem bytestreamDumpLines_measured {calls : List AppendOp} (run : bytestreamDumpLines addr m l todo i = .ok calls) :
    ∀ call ∈ calls, Measured call := by
  induction todo generalizing i calls with
  | zero =>
      cases run
      exact fun call inside => absurd inside List.not_mem_nil
  | succ todo ih =>
      rcases Memory.of_bind_ok run with ⟨line, first, run⟩
      rcases Memory.of_bind_ok run with ⟨others, later, run⟩
      rw [← Except.ok.inj run]
      intro call inside
      rcases List.mem_append.mp inside with head | tail
      · rcases List.mem_cons.mp head with rfl | cell
        · exact label_measured _
        · exact bytestreamDumpl_measured first call cell
      · rcases List.mem_cons.mp tail with rfl | other
        · exact .cat newline (by decide)
        · exact ih later call other

theorem bytestreamDumpmCalls_measured {calls : List AppendOp} (run : bytestreamDumpmCalls addr m n l = .ok calls) :
    ∀ call ∈ calls, Measured call := by
  have ended : ∀ call ∈ [AppendOp.cat newlines], Measured call := by
    intro call inside
    rw [List.mem_singleton.mp inside]
    exact .cat newlines (by decide)
  rcases Memory.of_bind_ok run with ⟨⟨quot, rem⟩, -, run⟩
  rcases Memory.of_bind_ok run with ⟨lines, first, run⟩
  dsimp only at run
  by_cases some : 0 < rem
  · rw [if_pos some] at run
    rcases Memory.of_bind_ok run with ⟨last, later, run⟩
    rw [← Except.ok.inj run]
    intro call inside
    rcases List.mem_append.mp inside with before | behind
    · rcases List.mem_append.mp before with line | line
      · exact bytestreamDumpLines_measured first call line
      · rcases List.mem_cons.mp line with rfl | cell
        · exact label_measured _
        · exact bytestreamDumpl_measured later call cell
    · exact ended call behind
  · rw [if_neg some] at run
    rw [← Except.ok.inj run]
    intro call inside
    rcases List.mem_append.mp inside with line | last
    · exact bytestreamDumpLines_measured first call line
    · exact ended call last

variable {E : Type} {sys : System E} {w : World E}

theorem Measured.appends {call : AppendOp} (measured : Measured call) (generous : Generous sys)
    (ample : Ample (8 * call.bytes.length) w.stream) :
    ∃ answer next, append sys call w = .ok (answer, next) ∧ Extended w.stream next.stream call.bytes := by
  cases measured with
  | nprintf sz text below near =>
      have short := text.short
      have limit := @toSigned_of_range sz.toNat (by omega) (by omega)
      rcases nprintf_appends generous ample short (by omega) sz.toNat_lt near with ⟨next, run, extended⟩
      rw [formatted, dif_pos short] at run
      exact ⟨_, next, run, extended⟩
  | cat piece short =>
      have few : piece.bytes.length ≤ 8 * piece.bytes.length := by omega
      rcases cat_appends generous piece short ample few with ⟨next, run, extended⟩
      exact ⟨_, next, run, extended⟩

theorem appendAll_written {calls : List AppendOp} (measured : ∀ call ∈ calls, Measured call) (generous : Generous sys)
    (ample : Ample (8 * (written calls).length) w.stream) :
    ∃ next, appendAll sys calls w = .ok next ∧ Extended w.stream next.stream (written calls) := by
  induction calls generalizing w with
  | nil => exact ⟨w, rfl, by simp [written], rfl, rfl, (List.append_nil _).symm, ample.buffered, id⟩
  | cons call calls ih =>
      rcases List.forall_mem_cons.mp measured with ⟨here, others⟩
      rw [written_cons, List.length_append] at ample
      rcases here.appends generous (ample.mono (by omega)) with ⟨answer, middle, run, extended⟩
      have less : call.bytes.length + 8 * (written calls).length ≤ 8 * (call.bytes.length + (written calls).length) := by
        omega
      rcases ih others ((ample.mono less).extended extended) with ⟨next, later, more⟩
      refine ⟨next, ?_, ?_⟩
      · rw [appendAll, run]
        exact later
      · rw [written_cons]
        exact extended.trans more

/-- Both dumps in hexadecimal say the same and are read back to the bytes that have been dumped, whatever these are;
the one in a stream has a NUL behind it. -/
theorem dumps_readBack (addr : UInt64) (m : List UInt8) (n l : UInt64) (positive : 0 < l) (small : l.toNat < 2 ^ 31)
    (small' : n.toNat < 2 ^ 31) (inside : n.toNat ≤ m.length) :
    ∃ text, dumpm addr m n l = .ok text ∧ readDump text = m.take n.toNat ∧
      ∀ (E : Type) (sys : System E) (w : World E), Generous sys → Ample (8 * (text.length + 1)) w.stream →
        ∃ next, bytestreamDumpm sys addr m n l w = .ok next ∧ Extended w.stream next.stream (text ++ [0]) := by
  rcases dumpm_shows addr positive small small' inside with ⟨text, run, read⟩
  refine ⟨text, run, read, fun E sys w generous ample => ?_⟩
  have same := bytestreamDumpmCalls_written addr m n l
  rw [run] at same
  rcases Memory.of_map_ok same with ⟨calls, made, whole⟩
  have size : (written calls).length = text.length + 1 := by rw [whole, List.length_append, List.length_singleton]
  rw [← size] at ample
  rcases appendAll_written (bytestreamDumpmCalls_measured made) generous ample with ⟨next, ran, extended⟩
  refine ⟨next, ?_, ?_⟩
  · rw [bytestreamDumpm, made]
    exact ran
  · rwa [whole] at extended

theorem sampleDumps_readBack :
    ∃ text, dumpm 4096 [72, 105, 10] 3 2 = .ok text ∧ readDump text = [72, 105, 10] ∧
      ∀ (E : Type) (sys : System E) (w : World E), Generous sys → Ample (8 * (text.length + 1)) w.stream →
        ∃ next, bytestreamDumpm sys 4096 [72, 105, 10] 3 2 w = .ok next ∧
          Extended w.stream next.stream (text ++ [0]) :=
  dumps_readBack 4096 [72, 105, 10] 3 2 (by decide) (by decide) (by decide) (by decide)

end Stream

section Bits

/-- The bits of a byte, the lowest first. -/
def bitsOf (c : UInt8) : List Bool := (List.range 8).map fun i => c.toNat.testBit i

/-- Some bits of a byte, the highest first. -/
def highBits (c : UInt8) (count : Nat) : List Bool := (List.range count).map fun i => c.toNat.testBit (7 - i)

/-- The bits that a dump of `sz` bits is to show: those of the full bytes, and the highest of the next one. -/
def shownBits (m : List UInt8) (sz : Nat) : List Bool :=
  (m.take (sz / 8)).flatMap bitsOf ++ ((m.drop (sz / 8)).take 1).flatMap (highBits · (sz % 8))

/-- The bits that are read in a line of digits. -/
def digits (cells : List UInt8) : List Bool := cells.map fun c => c = 49

/-- The bits that a dump shows. -/
def readBits (text : List UInt8) : List Bool := digits (marks.readCells 18 text)

/-- The bytes that bits make, eight at a time. -/
def packed : List Bool → List UInt8
  | b0 :: b1 :: b2 :: b3 :: b4 :: b5 :: b6 :: b7 :: rest =>
      UInt8.ofNat (Nat.ofDigits 2 ([b0, b1, b2, b3, b4, b5, b6, b7].map Bool.toNat)) :: packed rest
  | _ => []

theorem bitsLe_digits (c : UInt8) : digits ((bitsLe c).filter fun c => c ≠ marks.blank) = bitsOf c :=
  @of_bytes (fun c => digits ((bitsLe c).filter fun c => c ≠ marks.blank) = bitsOf c) (by decide +kernel) c

theorem bitsLeft_digits (c : UInt8) (few : i < 8) :
    digits ((bitsLeft c i).filter fun c => c ≠ marks.blank) = highBits c i := by
  have table : ∀ k : Fin 8, digits ((bitsLeft c k).filter fun c => c ≠ marks.blank) = highBits c k :=
    @of_bytes (fun c => ∀ k : Fin 8, digits ((bitsLeft c k).filter fun c => c ≠ marks.blank) = highBits c k)
      (by decide +kernel) c
  exact table ⟨i, few⟩

theorem packed_bitsOf (c : UInt8) (rest : List Bool) : packed (bitsOf c ++ rest) = c :: packed rest := by
  have back : UInt8.ofNat (Nat.ofDigits 2 ((bitsOf c).map Bool.toNat)) = c :=
    @of_bytes (fun c => UInt8.ofNat (Nat.ofDigits 2 ((bitsOf c).map Bool.toNat)) = c) (by decide +kernel) c
  conv_rhs => rw [← back]
  rfl

/-- The cells of a line with their blanks. -/
def bitCells (bytes left : List UInt8) (rembits : Nat) : List UInt8 :=
  bytes.flatMap bitsLe ++ left.flatMap (bitsLeft · rembits) ++
    List.replicate (9 * (8 - (bytes.length + left.length))) 32

def bitLine (addr : UInt64) (bytes left : List UInt8) (rembits : Nat) : Line UInt8 :=
  ⟨hex16 addr ++ [58, 32], bitCells bytes left rembits, bytes.map shown⟩

/-- Neither a bar nor a line end. -/
def Inner (x : UInt8) : Prop := x ≠ marks.bar ∧ x ≠ marks.newline

theorem bit_inner (c mask : UInt8) : Inner (bit c mask) := by
  rw [bit]
  split
  · exact ⟨by decide, by decide⟩
  · exact ⟨by decide, by decide⟩

theorem blank_inner : Inner 32 := ⟨by decide, by decide⟩

theorem bitsLe_inner (c : UInt8) : ∀ x ∈ bitsLe c, Inner x := by
  simp only [bitsLe, List.forall_mem_cons, bit_inner, blank_inner, true_and]
  exact fun x inside => absurd inside List.not_mem_nil

theorem bitsLeft_inner (c : UInt8) (rembits : Nat) : ∀ x ∈ bitsLeft c rembits, Inner x := by
  intro x inside
  rw [bitsLeft, List.mem_append, List.mem_append] at inside
  rcases inside with (digit | blank) | last
  · rcases List.mem_map.mp digit with ⟨k, -, rfl⟩
    exact bit_inner c _
  · rw [List.eq_of_mem_replicate blank]
    exact blank_inner
  · rw [List.mem_singleton.mp last]
    exact blank_inner

theorem bitCells_inner (bytes left : List UInt8) (rembits : Nat) : ∀ x ∈ bitCells bytes left rembits, Inner x := by
  intro x inside
  rw [bitCells, List.mem_append, List.mem_append] at inside
  rcases inside with (full | rest) | blank
  · rcases List.mem_flatMap.mp full with ⟨c, -, digit⟩
    exact bitsLe_inner c x digit
  · rcases List.mem_flatMap.mp rest with ⟨c, -, digit⟩
    exact bitsLeft_inner c rembits x digit
  · rw [List.eq_of_mem_replicate blank]
    exact blank_inner

theorem bitLine_proper (addr : UInt64) (bytes left : List UInt8) (rembits : Nat) :
    marks.Proper 18 (bitLine addr bytes left rembits) where
  wide := by rw [bitLine, List.length_append, length_hex16]; rfl
  label := by
    intro inside
    rcases List.mem_append.mp inside with digit | colon
    · exact (hex16_plain addr _ digit).2.2 rfl
    · exact absurd colon (by decide)
  cells := fun inside => (bitCells_inner bytes left rembits _ inside).2 rfl
  picture := picture_undivided bytes
  unbarred := fun inside => (bitCells_inner bytes left rembits _ inside).1 rfl

theorem digits_append (first second : List UInt8) : digits (first ++ second) = digits first ++ digits second :=
  List.map_append

theorem digits_flatMap {f : UInt8 → List UInt8} {g : UInt8 → List Bool}
    (same : ∀ c, digits ((f c).filter fun c => c ≠ marks.blank) = g c) (bytes : List UInt8) :
    digits ((bytes.flatMap f).filter fun c => c ≠ marks.blank) = bytes.flatMap g := by
  induction bytes with
  | nil => rfl
  | cons c bytes ih => rw [List.flatMap_cons, List.filter_append, digits_append, same, ih, List.flatMap_cons]

theorem bitCells_digits (bytes left : List UInt8) (few : i < 8) :
    digits ((bitCells bytes left i).filter fun c => c ≠ marks.blank) =
      bytes.flatMap bitsOf ++ left.flatMap (highBits · i) := by
  have none : ∀ count, (List.replicate count (32 : UInt8)).filter (fun c => c ≠ marks.blank) = [] := fun count =>
    List.filter_eq_nil_iff.mpr fun c inside => by simp [List.eq_of_mem_replicate inside, marks]
  rw [bitCells, List.filter_append, none, List.append_nil, List.filter_append, digits_append,
    digits_flatMap bitsLe_digits, digits_flatMap fun c => bitsLeft_digits c few]

theorem readBits_line (addr : UInt64) (bytes left : List UInt8) (few : i < 8) (rest : List UInt8) :
    readBits (marks.chars (bitLine addr bytes left i) ++ 10 :: rest) =
      bytes.flatMap bitsOf ++ left.flatMap (highBits · i) ++ readBits rest := by
  have proper := bitLine_proper addr bytes left i
  have apart := @Marks.readCells_line _ marks _ 18 _ rest proper.undivided
  rw [proper.lineCells_chars] at apart
  rw [readBits, ← bitCells_digits bytes left few, readBits, ← digits_append]
  exact congrArg digits apart

theorem length_bitsLeft (c : UInt8) (few : i < 8) : (bitsLeft c i).length = 9 := by
  simp only [bitsLeft, List.length_append, List.length_map, List.length_range, List.length_replicate,
    List.length_singleton]
  omega

theorem length_flatMap {f : UInt8 → List UInt8} {size : Nat} (same : ∀ c, (f c).length = size) (bytes : List UInt8) :
    (bytes.flatMap f).length = size * bytes.length := by
  induction bytes with
  | nil => rfl
  | cons c bytes ih => rw [List.flatMap_cons, List.length_append, same, ih, List.length_cons, Nat.mul_succ, Nat.add_comm]

/-- A line fits into its buffer, with room to spare. -/
theorem mndumpBitsOneLine_ok {sz : Nat} (few : sz ≤ 64) (inside : start + (sz + 7) / 8 ≤ m.length) :
    mndumpBitsOneLine addr m start sz = .ok (marks.chars (bitLine addr ((m.drop start).take (sz / 8))
      ((m.drop (start + sz / 8)).take (if sz % 8 = 0 then 0 else 1)) (sz % 8)) ++ [10]) := by
  have rem : sz % 8 < 8 := Nat.mod_lt _ (by decide)
  have first : start + sz / 8 ≤ m.length := by omega
  have second : start + sz / 8 + (if sz % 8 = 0 then 0 else 1) ≤ m.length := by
    split
    · omega
    · omega
  have count : ((m.drop start).take (sz / 8)).length = sz / 8 := by
    rw [List.length_take, List.length_drop]
    omega
  have count' : ((m.drop (start + sz / 8)).take (if sz % 8 = 0 then 0 else 1)).length =
      if sz % 8 = 0 then 0 else 1 := by
    rw [List.length_take, List.length_drop]
    omega
  have ten : ∀ c, (bitsLe c).length = 10 := fun _ => rfl
  have full := length_flatMap ten ((m.drop start).take (sz / 8))
  have rest := length_flatMap (fun c => length_bitsLeft c rem)
    ((m.drop (start + sz / 8)).take (if sz % 8 = 0 then 0 else 1))
  rw [mndumpBitsOneLine, if_neg (not_lt.mpr few)]
  dsimp only
  rw [readAt_ok first, readAt_ok second]
  dsimp only [bind, Except.bind]
  rw [if_pos]
  · refine congrArg Except.ok ?_
    rw [Marks.chars, bitLine, bitCells, count]
    simp only [List.append_assoc, List.cons_append, List.nil_append]
    rfl
  · simp only [List.length_append, List.length_cons, List.length_replicate, List.length_map, List.length_nil,
      length_hex16, full, rest, count, count']
    split
    · omega
    · omega

theorem left_bits (m : List UInt8) (start rembits : Nat) :
    ((m.drop start).take (if rembits = 0 then 0 else 1)).flatMap (highBits · rembits) =
      ((m.drop start).take 1).flatMap (highBits · rembits) := by
  by_cases zero : rembits = 0
  · have none : (highBits · rembits) = fun _ => [] := funext fun c => by rw [highBits, zero]; rfl
    rw [none, List.flatMap_eq_nil_iff.mpr fun _ _ => rfl, List.flatMap_eq_nil_iff.mpr fun _ _ => rfl]
  · rw [if_neg zero]

/-- The bits of a line, which are followed by others. -/
theorem mndumpBitsOneLine_shows {sz : Nat} (addr : UInt64) (few : sz ≤ 64) (inside : start + (sz + 7) / 8 ≤ m.length) :
    ∃ text, mndumpBitsOneLine addr m start sz = .ok text ∧
      ∀ rest, readBits (text ++ rest) = shownBits (m.drop start) sz ++ readBits rest := by
  refine ⟨_, mndumpBitsOneLine_ok few inside, fun rest => ?_⟩
  rw [List.append_assoc, List.singleton_append, readBits_line _ _ _ (Nat.mod_lt _ (by decide)), left_bits, shownBits,
    List.drop_drop]

theorem byteidx_next {b : UInt32} (small : b.toNat + 8 < 2 ^ 32) : (b + 8).toNat = b.toNat + 8 := by
  rw [UInt32.toNat_add]
  exact Nat.mod_eq_of_lt small

/-- The full lines, of which `todo` are left. -/
theorem bitLines_show (addr : UInt64) {bytesz : Nat} (short : bytesz < 2 ^ 32 - 8) (inside : bytesz ≤ m.length)
    {b : UInt32} (todo : Nat) (left : b.toNat + 8 * todo = 8 * (bytesz / 8)) (enough : todo < fuel) :
    ∃ text last, bitLines addr m bytesz fuel b = .ok (text, last) ∧ last.toNat = 8 * (bytesz / 8) ∧
      ∀ rest, readBits (text ++ rest) = ((m.drop b.toNat).take (8 * todo)).flatMap bitsOf ++ readBits rest := by
  induction todo generalizing fuel b with
  | zero =>
      rcases Nat.exists_eq_add_of_lt enough with ⟨k, rfl⟩
      have next := @byteidx_next b (by omega)
      refine ⟨[], b, ?_, by omega, fun rest => rfl⟩
      rw [bitLines, if_neg (by omega)]
      rfl
  | succ todo ih =>
      rcases Nat.exists_eq_add_of_lt enough with ⟨k, rfl⟩
      have next := @byteidx_next b (by omega)
      rcases @mndumpBitsOneLine_shows m b.toNat 64 (addr + b.toUInt64) le_rfl (by omega) with ⟨line, made, shows⟩
      rcases @ih (todo + 1 + k) (b + 8) (by omega) (by omega) with ⟨text, last, run, stop, read⟩
      refine ⟨line ++ text, last, ?_, stop, fun rest => ?_⟩
      · rw [bitLines, if_pos (by omega), made]
        dsimp only [bind, Except.bind]
        rw [run]
        rfl
      · have bits : shownBits (m.drop b.toNat) 64 = ((m.drop b.toNat).take 8).flatMap bitsOf := by
          have none : (highBits · 0) = fun _ => [] := rfl
          rw [shownBits, none, List.flatMap_eq_nil_iff.mpr fun _ _ => rfl, List.append_nil]
        have count : 8 * (todo + 1) = 8 + 8 * todo := by omega
        rw [List.append_assoc, shows, read, bits, next, count, List.take_add, List.flatMap_append, List.drop_drop,
          List.append_assoc]

/-- The index of the byte runs through all its values where there are too many bytes. -/
theorem bitLines_endless (addr : UInt64) (m : List UInt8) {bytesz : Nat} (long : 2 ^ 32 - 8 ≤ bytesz) (fuel : Nat)
    (b : UInt32) (aligned : b.toNat % 8 = 0) (result : List UInt8 × UInt32) :
    bitLines addr m bytesz fuel b ≠ .ok result := by
  induction fuel generalizing b result with
  | zero => exact fun wrong => by cases wrong
  | succ fuel ih =>
      have next : (b + 8).toNat = (b.toNat + 8) % 2 ^ 32 := UInt32.toNat_add b 8
      intro run
      rw [bitLines, if_pos (by omega)] at run
      rcases Memory.of_bind_ok run with ⟨line, -, run⟩
      rcases Memory.of_bind_ok run with ⟨rest, later, -⟩
      exact ih (b + 8) (by omega) rest later

theorem readBits_newline : readBits [10] = [] := by
  have empty : [10] = marks.newline :: [] := rfl
  rw [readBits, empty, Marks.readCells_empty, Marks.readCells_nil]
  rfl

theorem packed_bits (bytes : List UInt8) (rest : List Bool) :
    packed (bytes.flatMap bitsOf ++ rest) = bytes ++ packed rest := by
  induction bytes with
  | nil => rfl
  | cons c bytes ih => rw [List.flatMap_cons, List.append_assoc, packed_bitsOf, ih, List.cons_append]

/-- Fewer than eight bits make no byte. -/
theorem packed_few {bits : List Bool} (few : bits.length < 8) : packed bits = [] := by
  rw [packed]
  rintro b0 b1 b2 b3 b4 b5 b6 b7 rest rfl
  simp only [List.length_cons] at few
  omega

theorem packed_shownBits (m : List UInt8) (sz : Nat) : packed (shownBits m sz) = m.take (sz / 8) := by
  have rem : sz % 8 < 8 := Nat.mod_lt _ (by decide)
  have few : (((m.drop (sz / 8)).take 1).flatMap (highBits · (sz % 8))).length < 8 := by
    cases m.drop (sz / 8) with
    | nil => exact Nat.zero_lt_succ 7
    | cons c others =>
        rw [List.take_succ_cons, List.take_zero, List.flatMap_cons, List.flatMap_nil, List.append_nil, highBits,
          List.length_map, List.length_range]
        exact rem
  rw [shownBits, packed_bits, packed_few few, List.append_nil]

/-- The bits behind some full lines. -/
theorem shownBits_split (m : List UInt8) (sz k : Nat) (whole : 8 * k ≤ sz / 8) :
    shownBits m sz = (m.take (8 * k)).flatMap bitsOf ++ shownBits (m.drop (8 * k)) (sz - 64 * k) := by
  have bytes : (sz - 64 * k) / 8 = sz / 8 - 8 * k := by omega
  have bits : (sz - 64 * k) % 8 = sz % 8 := by omega
  have parts : 8 * k + (sz / 8 - 8 * k) = sz / 8 := by omega
  have taken : m.take (sz / 8) = m.take (8 * k) ++ (m.drop (8 * k)).take (sz / 8 - 8 * k) := by
    rw [← List.take_add, parts]
  rw [shownBits, shownBits, bytes, bits, List.drop_drop, parts, taken, List.flatMap_append, List.append_assoc]

/-- The full lines and the index behind them. -/
theorem fullLines_show (addr : UInt64) {sz : Nat} (short : sz / 8 < 2 ^ 32 - 8) (inside : sz / 8 ≤ m.length) :
    ∃ lines last, fullLines addr m (sz / 8) (sz / 64 + 1) = .ok (lines, last) ∧ last.toNat = 8 * (sz / 64) ∧
      ∀ rest, readBits (lines ++ rest) = (m.take (8 * (sz / 64))).flatMap bitsOf ++ readBits rest := by
  have same : sz / 8 / 8 = sz / 64 := by omega
  rw [fullLines]
  by_cases full : 8 ≤ sz / 8
  · rw [if_pos full]
    have start : (0 : UInt32).toNat + 8 * (sz / 64) = 8 * (sz / 8 / 8) := by
      rw [same]
      exact Nat.zero_add _
    rcases bitLines_show addr short inside (sz / 64) start (Nat.lt_succ_self _) with ⟨lines, last, run, stop, read⟩
    exact ⟨lines, last, run, stop.trans (by rw [same]), read⟩
  · have none : sz / 64 = 0 := by omega
    rw [if_neg full, none]
    exact ⟨[], 0, rfl, rfl, fun rest => rfl⟩

theorem mndumpBits_shows (addr : UInt64) {sz : Nat} (short : sz / 8 < 2 ^ 32 - 8) (inside : (sz + 7) / 8 ≤ m.length) :
    ∃ text, mndumpBits (sz / 64 + 1) addr m sz = .ok text ∧ readBits text = shownBits m sz := by
  rw [mndumpBits]
  dsimp only
  by_cases some : 0 < sz / 8
  · rw [if_pos some]
    rcases @fullLines_show m addr sz short (by omega) with ⟨lines, last, run, stop, read⟩
    have split := shownBits_split m sz (sz / 64) (by omega)
    have rest : sz - 64 * (sz / 64) = sz % 64 := by omega
    rw [run]
    dsimp only [bind, Except.bind]
    by_cases even : sz % 64 = 0
    · refine ⟨lines ++ [10], if_pos even, ?_⟩
      have none : shownBits (m.drop (8 * (sz / 64))) 0 = [] := by
        rw [shownBits, ← left_bits]
        rfl
      rw [split, rest, even, none, read, readBits_newline]
    · rcases @mndumpBitsOneLine_shows m last.toNat (sz % 64) (addr + last.toUInt64) (by omega) (by omega) with
        ⟨line, made, shows⟩
      refine ⟨lines ++ line ++ [10], ?_, ?_⟩
      · rw [if_neg even, made]
        rfl
      · rw [List.append_assoc, read, shows, readBits_newline, List.append_nil, split, rest, stop]
  · rw [if_neg some]
    rcases @mndumpBitsOneLine_shows m 0 sz addr (by omega) (by omega) with ⟨line, made, shows⟩
    refine ⟨line ++ [10], ?_, ?_⟩
    · rw [made]
      rfl
    · rw [shows, readBits_newline, List.append_nil, List.drop_zero]

end Bits

end MnCommon.Dumpm
