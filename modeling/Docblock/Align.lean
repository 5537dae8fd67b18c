import Docblock.Text.Basic

/-!
# Columns across neighbouring rows

A row is a list of cells followed by a tail.  A group of a column is a maximal run of rows that
follow one another and have a cell there, inside a group of the column before.  Its cells are
padded to the widest of them and the padding.  Tails are never padded, and a row without cells
divides the rows around it.

`layOut` goes down the rows of a group and looks for the groups of the next column among them.  The
rows in front of such a group end before that column, so they are complete and are written; the
rows of the group are laid out with one width more.
-/

namespace Docblock

/-- A line before its cells are aligned. -/
structure Row where
  cells : List Text
  tail : Text
  deriving DecidableEq, Repr

namespace Row

/-! ## Lines -/

/-- A cell filled up with blanks to the given width. -/
def pad (width : Nat) (cell : Text) : Text :=
  cell ++ List.replicate (width - cell.length) ' '

/-- A cell in its column. It is left as it is where the column has no width. -/
def fill : Option Nat → Text → Text
  | some width, cell => pad width cell
  | none, cell => cell

/-- The line of a row. Its first cells are filled up to the given widths, one for each column. -/
def line (widths : List Nat) (row : Row) : Text :=
  (row.cells.mapIdx fun j cell => fill widths[j]? cell).flatten ++ row.tail

/-- Write the lines of some rows, the first of them at place `i`. -/
def writeLines (widths : List Nat) : Nat → List Row → List Text → List Text
  | _, [], out => out
  | i, row :: rows, out => writeLines widths (i + 1) rows (out.set i (row.line widths))

/-! ## Groups -/

/-- The rows from place `i` on, and before place `stop`, that follow one another and have a cell in
the column. -/
def group (rows : List Row) (column i stop : Nat) : List Row :=
  (rows.extract i stop).takeWhile (column < ·.cells.length)

/-- The width of a column in a group. -/
def groupWidth (padding column : Nat) (members : List Row) : Nat :=
  (members.map fun row => (row.cells.getD column []).length + padding).foldr max 0

/-- The number of columns of some rows. -/
def columns (rows : List Row) : Nat :=
  (rows.map (·.cells.length)).foldr max 0

theorem length_le_columns {rows : List Row} {row : Row} (h : row ∈ rows) :
    row.cells.length ≤ columns rows := by
  induction rows with
  | nil => cases h
  | cons r rows ih =>
    rcases List.mem_cons.mp h with rfl | h
    · exact Nat.le_max_left _ _
    · exact Nat.le_trans (ih h) (Nat.le_max_right _ _)

theorem lt_length_of_mem_group {rows : List Row} {column i stop : Nat} {row : Row}
    (h : row ∈ group rows column i stop) : column < row.cells.length := by
  have hall := List.all_eq_true.mp (List.all_takeWhile (l := rows.extract i stop)
    (p := fun row => decide (column < row.cells.length)))
  exact of_decide_eq_true (hall row h)

theorem group_sublist (rows : List Row) (column i stop : Nat) :
    (group rows column i stop).Sublist rows :=
  (List.takeWhile_sublist _).trans ((List.take_sublist _ _).trans (List.drop_sublist _ _))

/-- What is left to do inside a group: it has a column less, and that outweighs its rows. -/
theorem group_descends {rows : List Row} {column i stop : Nat}
    (h : group rows column i stop ≠ []) :
    (columns rows - (column + 1)) * (rows.length + 1) + (group rows column i stop).length <
      (columns rows - column) * (rows.length + 1) := by
  obtain ⟨row, hrow⟩ := List.exists_mem_of_ne_nil _ h
  have hrows := group_sublist rows column i stop
  have hcolumn : column < columns rows :=
    Nat.lt_of_lt_of_le (lt_length_of_mem_group hrow) (length_le_columns (hrows.mem hrow))
  have hsucc : columns rows - column = columns rows - (column + 1) + 1 := by omega
  rw [hsucc, Nat.succ_mul]
  exact Nat.add_lt_add_left (Nat.lt_succ_of_le hrows.length_le) _

/-! ## All rows -/

section Layout

variable (padding : Nat) (rows : List Row)

/-- Lay out the rows from place `i` on, and before place `stop`, of a group whose columns so far
have the given widths. The rows from `start` on are not written yet. -/
@[semireducible] def layOut (widths : List Nat) (start i stop : Nat) (out : List Text) : List Text :=
  if i < stop then
    let members := group rows widths.length i stop
    if members = [] then layOut widths start (i + 1) stop out
    else
      let next := i + members.length
      let width := groupWidth padding widths.length members
      let out := writeLines widths start (rows.extract start i) out
      let out := layOut (widths ++ [width]) i i next out
      layOut widths next next stop out
  else writeLines widths start (rows.extract start stop) out
termination_by (columns rows - widths.length) * (rows.length + 1) + (stop - i)
decreasing_by
  · omega
  · have := group_descends ‹¬members = []›
    rw [List.length_append, List.length_singleton]
    omega
  · have : 0 < (group rows widths.length i stop).length :=
      List.length_pos_iff.mpr ‹¬members = []›
    omega

/-- The lines of a list of rows. Cells end at least `padding` blanks before what follows. -/
def align : List Text :=
  layOut padding rows [] 0 0 rows.length (rows.map fun _ => [])

end Layout

end Row

end Docblock
