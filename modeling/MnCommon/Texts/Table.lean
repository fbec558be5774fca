import Mathlib.Data.List.Basic

/-! Tables of characters that are read back: each line has a label of a known width, cells that blanks may hold
apart, a bar, and a picture that says nothing new. -/

namespace MnCommon.Texts

variable {C : Type}

/-- The characters that mark the parts of a table. -/
structure Marks (C : Type) where
  blank : C
  bar : C
  newline : C
  apart : newline ≠ bar

structure Line (C : Type) where
  label : List C
  cells : List C
  picture : List C

namespace Marks

variable (marks : Marks C)

def chars (line : Line C) : List C := line.label ++ (line.cells ++ marks.bar :: line.picture)

/-- A line that can be told apart from the others and its cells from the rest of it. -/
structure Proper (width : Nat) (line : Line C) : Prop where
  wide : line.label.length = width
  label : marks.newline ∉ line.label
  cells : marks.newline ∉ line.cells
  picture : marks.newline ∉ line.picture
  unbarred : marks.bar ∉ line.cells

variable [DecidableEq C]

/-- The cells of a line without the blanks. -/
def lineCells (width : Nat) (chars : List C) : List C :=
  ((chars.drop width).takeWhile fun c => c ≠ marks.bar).filter fun c => c ≠ marks.blank

/-- The cells of all lines. -/
def readCells (width : Nat) (text : List C) : List C :=
  (text.splitOn marks.newline).flatMap (marks.lineCells width)

variable {marks} {width : Nat} {line : Line C} {text rest : List C}

omit [DecidableEq C] in
theorem Proper.undivided (proper : marks.Proper width line) : marks.newline ∉ marks.chars line := by
  rw [chars, List.mem_append, List.mem_append, List.mem_cons]
  rintro (label | cells | bar | picture)
  · exact proper.label label
  · exact proper.cells cells
  · exact marks.apart bar
  · exact proper.picture picture

theorem Proper.lineCells_chars (proper : marks.Proper width line) :
    marks.lineCells width (marks.chars line) = line.cells.filter fun c => c ≠ marks.blank := by
  have behind : (marks.chars line).drop width = line.cells ++ marks.bar :: line.picture := by
    rw [chars, ← proper.wide, List.drop_left]
  have before : ∀ c ∈ line.cells, decide (c ≠ marks.bar) = true := by
    intro c inside
    exact decide_eq_true fun same => proper.unbarred (same ▸ inside)
  rw [lineCells, behind, List.takeWhile_append_of_pos before, List.takeWhile_cons_of_neg (by simp), List.append_nil]

theorem readCells_nil : marks.readCells width [] = [] := by
  rw [readCells, List.splitOn_nil, List.flatMap_singleton, lineCells, List.drop_nil]
  rfl

/-- The first line of a text is read on its own. -/
theorem readCells_line (undivided : marks.newline ∉ text) :
    marks.readCells width (text ++ marks.newline :: rest) = marks.lineCells width text ++ marks.readCells width rest := by
  rw [readCells, List.splitOn_append_cons_self_of_not_mem undivided, List.flatMap_cons]
  rfl

/-- An empty line says nothing. -/
theorem readCells_empty : marks.readCells width (marks.newline :: rest) = marks.readCells width rest := by
  have first : marks.readCells width ([] ++ marks.newline :: rest) = _ := readCells_line List.not_mem_nil
  rwa [lineCells, List.drop_nil] at first

end Marks

end MnCommon.Texts
