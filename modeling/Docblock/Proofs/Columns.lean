import Docblock.Align
import Mathlib.Data.List.TakeWhile

/-!
# The width of a column

The layout looks for groups inside groups, and writes a row when the groups around it have used up
its cells.  What comes of it can be said of every cell on its own: its width is that of the widest
cell in the maximal run of rows around it that reach its column, and the padding.

## Contents

1. `runAround`, `columnWidth`: the width of a cell.
2. `columnWidth_of_group`: the rows of a group are the run around each of them.
3. `getElem?_layOut`: the layout of a group writes each of its rows, and no other row.
4. `align_eq_mapIdx`: the lines of all rows.
-/

namespace Docblock.Row

/-! ## Section 1: Runs -/

/-- What the rows have in column `j`. -/
def column (j : Nat) (rows : List Row) : List (Option Text) :=
  rows.map (·.cells[j]?)

/-- The maximal run of cells around place `i` of a column: those directly above it, and those from
it on. -/
def runAround (i : Nat) (col : List (Option Text)) : List (Option Text) :=
  ((col.take i).reverse.takeWhile Option.isSome).reverse ++ (col.drop i).takeWhile Option.isSome

/-- The number of characters of the longest cell. -/
def longest (cells : List (Option Text)) : Nat :=
  (cells.map fun cell => (cell.getD []).length).foldr max 0

/-- How wide the cell of row `i` in column `j` is made. -/
def columnWidth (padding : Nat) (rows : List Row) (i j : Nat) : Nat :=
  padding + longest (runAround i (column j rows))

theorem getElem?_column (j : Nat) (rows : List Row) (i : Nat) :
    (column j rows)[i]? = rows[i]?.map (·.cells[j]?) :=
  List.getElem?_map

theorem column_append (j : Nat) (above below : List Row) :
    column j (above ++ below) = column j above ++ column j below :=
  List.map_append

@[simp] theorem length_column (j : Nat) (rows : List Row) : (column j rows).length = rows.length :=
  List.length_map _

@[simp] theorem longest_cons (cell : Option Text) (cells : List (Option Text)) :
    longest (cell :: cells) = max (cell.getD []).length (longest cells) := rfl

/-- No cell is longer than the longest. -/
theorem length_le_longest {cell : Option Text} {cells : List (Option Text)} (h : cell ∈ cells) :
    (cell.getD []).length ≤ longest cells := by
  induction cells with
  | nil => cases h
  | cons c cells ih =>
    rw [longest_cons]
    rcases List.mem_cons.mp h with rfl | h
    · exact le_max_left _ _
    · exact (ih h).trans (le_max_right _ _)

theorem takeWhile_eq_nil_of_head {col : List (Option Text)} (h : ∀ cell ∈ col.head?, cell = none) :
    col.takeWhile Option.isSome = [] := by
  cases col with
  | nil => rfl
  | cons cell col =>
    obtain rfl := h cell rfl
    rfl

/-- A stretch of cells with none directly above and below it is the run around each of its
places. -/
theorem runAround_append {above run below : List (Option Text)} {k : Nat}
    (habove : ∀ cell ∈ above.getLast?, cell = none) (hrun : ∀ cell ∈ run, cell.isSome)
    (hbelow : ∀ cell ∈ below.head?, cell = none) (hk : k ≤ run.length) :
    runAround (above.length + k) (above ++ (run ++ below)) = run := by
  -- the part of the run above row `k`, read upwards
  have hup : ((above ++ (run ++ below)).take (above.length + k)).reverse.takeWhile Option.isSome =
      (run.take k).reverse := by
    rw [List.take_length_add_append, List.take_append_of_le_length hk, List.reverse_append,
      List.takeWhile_append_of_pos, takeWhile_eq_nil_of_head, List.append_nil]
    · rwa [List.head?_reverse]
    · exact fun cell hcell => hrun cell (List.mem_of_mem_take (List.mem_reverse.mp hcell))
  -- and the part from row `k` on
  have hdown : ((above ++ (run ++ below)).drop (above.length + k)).takeWhile Option.isSome =
      run.drop k := by
    rw [List.drop_length_add_append, List.drop_append_of_le_length hk,
      List.takeWhile_append_of_pos, takeWhile_eq_nil_of_head hbelow, List.append_nil]
    exact fun cell hcell => hrun cell (List.mem_of_mem_drop hcell)
  rw [runAround, hup, hdown, List.reverse_reverse, List.take_append_drop]

/-- A cell is shorter than its column as soon as there is padding. -/
theorem length_lt_columnWidth {padding : Nat} (hpad : 0 < padding) {rows : List Row} {row : Row}
    {cell : Text} {i j : Nat} (hrow : rows[i]? = some row) (hcell : row.cells[j]? = some cell) :
    cell.length < columnWidth padding rows i j := by
  have hplace : (column j rows)[i]? = some (some cell) := by
    rw [getElem?_column, hrow, Option.map_some, hcell]
  obtain ⟨below, hbelow⟩ : ∃ below, (column j rows).drop i = some cell :: below := by
    rw [← List.head?_drop, List.head?_eq_some_iff] at hplace
    exact hplace
  have hmem : some cell ∈ runAround i (column j rows) := by
    rw [runAround, hbelow]
    simp
  have := length_le_longest hmem
  rw [Option.getD_some] at this
  rw [columnWidth]
  omega

/-! ## Section 2: Groups -/

/-- What a run ends at is not part of it. -/
theorem of_getElem?_length_takeWhile {α : Type} {p : α → Bool} {xs : List α} {x : α}
    (h : xs[(xs.takeWhile p).length]? = some x) : p x = false := by
  -- induction on the list, along the part that is taken
  induction xs with
  | nil => cases h
  | cons y xs ih =>
    cases hy : p y with
    | true => exact ih (by simpa [hy] using h)
    | false =>
      obtain rfl : y = x := by simpa [hy] using h
      exact hy

/-- A row that does not reach a column, or no row at all. -/
def Lacks (rows : List Row) (j i : Nat) : Prop :=
  ∀ row ∈ rows[i]?, row.cells.length ≤ j

theorem Lacks.mono {rows : List Row} {j j' i : Nat} (h : Lacks rows j i) (hj : j ≤ j') :
    Lacks rows j' i :=
  fun row hrow => (h row hrow).trans hj

theorem Lacks.cell_eq_none {rows : List Row} {j i : Nat} (h : Lacks rows j i) :
    ∀ cell ∈ (column j rows)[i]?, cell = none := by
  intro cell hcell
  rw [getElem?_column, Option.mem_def, Option.map_eq_some_iff] at hcell
  obtain ⟨row, hrow, rfl⟩ := hcell
  exact List.getElem?_eq_none (h row hrow)

/-- Seen from a row above, a column begins with nothing if the first row lacks it. -/
theorem Lacks.head_drop {rows : List Row} {j i : Nat} (h : Lacks rows j i) :
    ∀ cell ∈ (column j (rows.drop i)).head?, cell = none := by
  rw [List.head?_eq_getElem?, getElem?_column, List.getElem?_drop, ← getElem?_column]
  exact h.cell_eq_none

/-- Seen from a row below, a column ends with nothing if the last row lacks it. -/
theorem Lacks.getLast_take {rows : List Row} {j i : Nat} (h : ∀ l, l + 1 = i → Lacks rows j l)
    (hi : i ≤ rows.length) : ∀ cell ∈ (column j (rows.take i)).getLast?, cell = none := by
  cases i with
  | zero => simp [Row.column]
  | succ l =>
    rw [List.getLast?_eq_getElem?, length_column, List.length_take, min_eq_left hi,
      Nat.add_sub_cancel, getElem?_column, List.getElem?_take_of_lt (Nat.lt_succ_self l),
      ← getElem?_column]
    exact (h l rfl).cell_eq_none

section Group

variable {rows : List Row} {j i stop : Nat}

theorem group_append_drop (rows : List Row) (j i stop : Nat) :
    group rows j i stop ++ rows.drop (i + (group rows j i stop).length) = rows.drop i := by
  rw [← List.drop_drop]
  exact List.prefix_iff_eq_append.mp ((List.takeWhile_prefix _).trans (List.take_prefix _ _))

theorem getElem?_group {k : Nat} (hk : k < (group rows j i stop).length) :
    (group rows j i stop)[k]? = rows[i + k]? := by
  rw [← List.getElem?_drop, ← group_append_drop rows j i stop, List.getElem?_append_left hk]

theorem lt_length_of_lt_group {k : Nat} (hk : k < (group rows j i stop).length) :
    ∀ row ∈ rows[i + k]?, j < row.cells.length := by
  intro row hrow
  rw [← getElem?_group hk] at hrow
  exact lt_length_of_mem_group (List.mem_of_getElem? hrow)

theorem length_group_le (rows : List Row) (j i stop : Nat) :
    (group rows j i stop).length ≤ stop - i :=
  (List.takeWhile_sublist _).length_le.trans (List.length_take_le _ _)

/-- A group that ends before its place `stop` does so at a row that lacks the column. -/
theorem lacks_of_group_lt (rows : List Row) (j i stop : Nat)
    (h : i + (group rows j i stop).length < stop) :
    Lacks rows j (i + (group rows j i stop).length) := by
  intro row hrow
  have hextract : (rows.extract i stop)[(group rows j i stop).length]? = some row := by
    rw [List.getElem?_take_of_lt (by omega), List.getElem?_drop]
    exact hrow
  have := of_getElem?_length_takeWhile hextract
  exact Nat.le_of_not_lt (of_decide_eq_false this)

/-- The width of a column is that of its widest cell and the padding. -/
theorem groupWidth_cons (padding : Nat) (row : Row) (members : List Row) :
    groupWidth padding j (row :: members) = padding + longest (column j (row :: members)) := by
  -- induction on the rows below the first
  induction members generalizing row with
  | nil => simp [groupWidth, longest, column, Nat.add_comm]
  | cons next members ih =>
    have hwidth : groupWidth padding j (row :: next :: members) =
        max ((row.cells.getD j []).length + padding) (groupWidth padding j (next :: members)) := rfl
    have hlongest : longest (column j (row :: next :: members)) =
        max (row.cells.getD j []).length (longest (column j (next :: members))) := by
      rw [List.getD_eq_getElem?_getD]
      rfl
    rw [hwidth, hlongest, ih next]
    omega

/-- The rows of a group are the run around each of them, if the rows next to it lack its column. -/
theorem columnWidth_of_group (padding : Nat) {k : Nat}
    (habove : ∀ l, l + 1 = i → Lacks rows j l)
    (hbelow : Lacks rows j (i + (group rows j i stop).length))
    (hk : k < (group rows j i stop).length) :
    columnWidth padding rows (i + k) j = groupWidth padding j (group rows j i stop) := by
  have hi : i ≤ rows.length := by
    have hplace := (getElem?_group hk).symm.trans (List.getElem?_eq_getElem hk)
    have := (List.getElem?_eq_some_iff.mp hplace).1
    omega
  -- the column is cut into what is above the group, the group, and what is below it
  have hcolumn : column j rows = column j (rows.take i) ++ (column j (group rows j i stop) ++
      column j (rows.drop (i + (group rows j i stop).length))) := by
    rw [← column_append, group_append_drop, ← column_append, List.take_append_drop]
  have hmembers : ∀ cell ∈ column j (group rows j i stop), cell.isSome := by
    intro cell hcell
    obtain ⟨row, hrow, rfl⟩ := List.mem_map.mp hcell
    rw [List.getElem?_eq_getElem (lt_length_of_mem_group hrow)]
    rfl
  have hk' : k ≤ (column j (group rows j i stop)).length := by
    rw [length_column]
    exact hk.le
  have hrun := runAround_append (Lacks.getLast_take habove hi) hmembers hbelow.head_drop hk'
  rw [← hcolumn, length_column, List.length_take, min_eq_left hi] at hrun
  obtain ⟨row, members, hgroup⟩ := List.exists_cons_of_length_pos (Nat.zero_lt_of_lt hk)
  rw [columnWidth, hrun, hgroup, groupWidth_cons]

end Group

/-! ## Section 3: Rows that are written -/

@[simp] theorem length_writeLines (widths : List Nat) (i : Nat) (rows : List Row)
    (out : List Text) : (writeLines widths i rows out).length = out.length := by
  induction rows generalizing i out with
  | nil => rfl
  | cons row rows ih => rw [writeLines, ih, List.length_set]

/-- Lines that are written stand where their rows stand, and the others are left alone. -/
theorem getElem?_writeLines (widths : List Nat) {i : Nat} {rows : List Row} {out : List Text}
    (h : i + rows.length ≤ out.length) (k : Nat) :
    (writeLines widths i rows out)[k]? =
      if i ≤ k ∧ k < i + rows.length then rows[k - i]?.map (line widths) else out[k]? := by
  induction rows generalizing i out with
  | nil =>
    rw [List.length_nil, Nat.add_zero, if_neg (by omega)]
    rfl
  | cons row rows ih =>
    rw [List.length_cons] at h ⊢
    rw [writeLines, ih (by rw [List.length_set]; omega)]
    -- above the first row that is written, at it, or below it
    obtain hk | rfl | hk := Nat.lt_trichotomy k i
    · rw [if_neg (by omega), if_neg (by omega), List.getElem?_set_ne (by omega)]
    · rw [if_neg (by omega), if_pos (by omega), Nat.sub_self, List.getElem?_set_self (by omega)]
      rfl
    · obtain ⟨m, rfl⟩ : ∃ m, k = i + 1 + m := ⟨k - (i + 1), by omega⟩
      have hm : i + 1 + m - i = m + 1 := by omega
      rw [List.getElem?_set_ne (by omega), Nat.add_sub_cancel_left, hm, List.getElem?_cons_succ]
      exact if_congr (by omega) rfl rfl

/-- The widths of the first `n` cells of row `i`. -/
def widthsAt (padding : Nat) (rows : List Row) (i n : Nat) : List Nat :=
  (List.range n).map (columnWidth padding rows i)

theorem getElem?_widthsAt (padding : Nat) (rows : List Row) (i : Nat) {n j : Nat} (hj : j < n) :
    (widthsAt padding rows i n)[j]? = some (columnWidth padding rows i j) := by
  rw [widthsAt, List.getElem?_map, List.getElem?_range hj, Option.map_some]

/-- Row `i` with each of its cells in its width. -/
def lineAt (padding : Nat) (rows : List Row) (i : Nat) (row : Row) : Text :=
  row.line (widthsAt padding rows i row.cells.length)

/-- A line is its cells, each filled up to the width of its column, and the tail. -/
theorem lineAt_eq (padding : Nat) (rows : List Row) (i : Nat) (row : Row) :
    lineAt padding rows i row =
      (row.cells.mapIdx fun j => pad (columnWidth padding rows i j)).flatten ++ row.tail := by
  have hcells : (row.cells.mapIdx fun j cell =>
      fill (widthsAt padding rows i row.cells.length)[j]? cell) =
      row.cells.mapIdx fun j => pad (columnWidth padding rows i j) := by
    apply List.ext_getElem?
    intro j
    rw [List.getElem?_mapIdx, List.getElem?_mapIdx]
    refine Option.map_congr fun cell hcell => ?_
    obtain ⟨hj, -⟩ := List.getElem?_eq_some_iff.mp hcell
    rw [getElem?_widthsAt padding rows i hj, fill]
  rw [lineAt, line, hcells]

section Layout

variable {padding : Nat} {rows : List Row} {widths : List Nat} {start i stop : Nat}

/-- The state of the layout of a group: what `layOut` has found out about the rows from `start` on
and before `stop` when it looks at row `i`. -/
structure Grouped (padding : Nat) (rows : List Row) (widths : List Nat) (start i stop : Nat) :
    Prop where
  start_le : start ≤ i
  le_stop : i ≤ stop
  stop_le : stop ≤ rows.length
  /-- The widths are those of the columns so far, in every row of the group. -/
  widths_eq : ∀ k, start ≤ k → k < stop → widths = widthsAt padding rows k widths.length
  /-- Every row of the group has a cell in each of these columns. -/
  reach : ∀ k, start ≤ k → k < stop → ∀ row ∈ rows[k]?, widths.length ≤ row.cells.length
  /-- The rows that are not written yet have no further cell. -/
  held : ∀ k, start ≤ k → k < i → Lacks rows widths.length k
  /-- If a group of the next column begins at row `i`, it does not go on above. -/
  above : i < stop → Lacks rows widths.length i ∨ ∀ l, l + 1 = i → Lacks rows widths.length l
  /-- The group does not go on below. -/
  below : Lacks rows widths.length stop

namespace Grouped

/-- The rows that are not written yet are complete. -/
theorem lineAt_of_held (h : Grouped padding rows widths start i stop) {k : Nat} (hstart : start ≤ k)
    (hk : k < i) {row : Row} (hrow : row ∈ rows[k]?) :
    lineAt padding rows k row = row.line widths := by
  have hstop := Nat.lt_of_lt_of_le hk h.le_stop
  have hlength : row.cells.length = widths.length :=
    Nat.le_antisymm (h.held k hstart hk row hrow) (h.reach k hstart hstop row hrow)
  rw [lineAt, hlength, ← h.widths_eq k hstart hstop]

/-- Writing the rows that wait gives them their lines, and changes nothing else. -/
theorem getElem?_writeLines (h : Grouped padding rows widths start i stop) {out : List Text}
    (hout : out.length = rows.length) (k : Nat) :
    (writeLines widths start (rows.extract start i) out)[k]? =
      if start ≤ k ∧ k < i then rows[k]?.map (lineAt padding rows k) else out[k]? := by
  have := h.start_le
  have := h.le_stop
  have := h.stop_le
  have hlength : (rows.extract start i).length = i - start := by
    rw [List.length_take, List.length_drop]
    omega
  rw [Row.getElem?_writeLines widths (by omega), hlength, Nat.add_sub_cancel' h.start_le]
  by_cases hk : start ≤ k ∧ k < i
  · have hplace : (rows.extract start i)[k - start]? = rows[k]? := by
      rw [List.getElem?_take_of_lt (by omega), List.getElem?_drop, Nat.add_sub_cancel' hk.1]
    rw [if_pos hk, if_pos hk, hplace]
    exact Option.map_congr fun row hrow => (h.lineAt_of_held hk.1 hk.2 hrow).symm
  · rw [if_neg hk, if_neg hk]

/-- No group begins at row `i`. -/
theorem skip (h : Grouped padding rows widths start i stop) (hi : i < stop)
    (hgroup : group rows widths.length i stop = []) :
    Grouped padding rows widths start (i + 1) stop := by
  have hlacks : Lacks rows widths.length i := by
    have := lacks_of_group_lt rows widths.length i stop
    simpa [hgroup, hi] using this
  exact {
    start_le := Nat.le_succ_of_le h.start_le
    le_stop := hi
    stop_le := h.stop_le
    widths_eq := h.widths_eq
    reach := h.reach
    held := fun k hstart hk => by
      -- the rows held so far, and the one that is added
      obtain hk | rfl := Nat.lt_succ_iff_lt_or_eq.mp hk
      · exact h.held k hstart hk
      · exact hlacks
    above := fun _ => .inr fun l hl => by
      obtain rfl : l = i := Nat.succ.inj hl
      exact hlacks
    below := h.below }

section Members

variable (h : Grouped padding rows widths start i stop)
  (hgroup : group rows widths.length i stop ≠ [])

include h

/-- The row behind a group does not reach the column, or lies outside. -/
theorem lacks_next : Lacks rows widths.length (i + (group rows widths.length i stop).length) := by
  have hle := length_group_le rows widths.length i stop
  have := h.le_stop
  obtain hlt | heq : i + (group rows widths.length i stop).length < stop ∨
    i + (group rows widths.length i stop).length = stop := by omega
  · exact lacks_of_group_lt _ _ _ _ hlt
  · rw [heq]
    exact h.below

/-- The layout of the rest goes on behind the group. -/
theorem after :
    Grouped padding rows widths (i + (group rows widths.length i stop).length)
      (i + (group rows widths.length i stop).length) stop := by
  have hle := length_group_le rows widths.length i stop
  have hstart := h.start_le
  have hstop := h.le_stop
  -- the group is done, and the rows behind it start anew
  exact {
    start_le := le_refl _
    le_stop := by omega
    stop_le := h.stop_le
    widths_eq := fun k hk => h.widths_eq k (by omega)
    reach := fun k hk => h.reach k (by omega)
    held := fun k hk hk' => absurd hk (by omega)
    above := fun _ => .inl h.lacks_next
    below := h.below }

include hgroup

/-- The layout of the group begins with one width more. -/
theorem inside :
    Grouped padding rows
      (widths ++ [groupWidth padding widths.length (group rows widths.length i stop)]) i i
      (i + (group rows widths.length i stop).length) := by
  have hle := length_group_le rows widths.length i stop
  have hstart := h.start_le
  have hstop := h.le_stop
  have hpos := List.length_pos_iff.mpr hgroup
  have hreach {k : Nat} (hk : i ≤ k)
      (hk' : k < i + (group rows widths.length i stop).length) :
      ∀ row ∈ rows[k]?, widths.length < row.cells.length := by
    obtain ⟨m, rfl⟩ := Nat.exists_eq_add_of_le hk
    exact lt_length_of_lt_group (Nat.lt_of_add_lt_add_left hk')
  have habove : ∀ l, l + 1 = i → Lacks rows widths.length l := by
    refine (h.above (by omega)).resolve_left fun hlacks => ?_
    -- the group begins at row `i`, which therefore reaches the column
    have hi : i < rows.length := Nat.lt_of_lt_of_le (by omega) h.stop_le
    have hrow := List.getElem?_eq_getElem hi
    exact absurd (hlacks _ hrow) (Nat.not_le_of_lt (hreach le_rfl (by omega) _ hrow))
  -- inside the group its column has a width, and the next column is looked at
  exact {
    start_le := le_refl _
    le_stop := by omega
    stop_le := by have := h.stop_le; omega
    widths_eq := fun k hk hk' => by
      obtain ⟨m, rfl⟩ := Nat.exists_eq_add_of_le hk
      rw [List.length_append, List.length_singleton, widthsAt, List.range_succ, List.map_append,
        List.map_singleton, columnWidth_of_group padding habove h.lacks_next (by omega)]
      exact congrArg (· ++ _) (h.widths_eq _ (by omega) (by omega))
    reach := fun k hk hk' row hrow => by
      rw [List.length_append, List.length_singleton]
      exact hreach hk hk' row hrow
    held := fun k hk hk' => absurd hk (by omega)
    above := fun _ => .inr fun l hl => (habove l hl).mono (by simp)
    below := h.lacks_next.mono (by simp) }

end Members

end Grouped

@[simp] theorem length_layOut (padding : Nat) (rows : List Row) (widths : List Nat)
    (start i stop : Nat) (out : List Text) :
    (layOut padding rows widths start i stop out).length = out.length := by
  fun_induction layOut padding rows widths start i stop out with
  | case1 widths start i stop out hi members hmembers ih => exact ih
  | case2 widths start i stop out hi members hmembers next width written inner ihinner _ ihrest =>
    -- a group begins, and the rows in front of it are written
    rw [ihrest, ihinner, length_writeLines]
  | case3 widths start i stop out hi => exact length_writeLines ..

/-- The layout of a group writes the line of each row that is not written yet, and no other. -/
theorem getElem?_layOut {out : List Text} (h : Grouped padding rows widths start i stop)
    (hout : out.length = rows.length) (k : Nat) :
    (layOut padding rows widths start i stop out)[k]? =
      if start ≤ k ∧ k < stop then rows[k]?.map (lineAt padding rows k) else out[k]? := by
  fun_induction layOut padding rows widths start i stop out with
  | case1 widths start i stop out hi members hmembers ih => exact ih (h.skip hi hmembers) hout
  | case2 widths start i stop out hi members hmembers next width written inner ihinner _ ihrest =>
    -- a group begins, and the rows in front of it are written
    have hwritten : written.length = rows.length := (length_writeLines ..).trans hout
    have hinner : inner.length = rows.length := (length_layOut ..).trans hwritten
    rw [ihrest h.after hinner, ihinner (h.inside hmembers) hwritten, h.getElem?_writeLines hout]
    have hstart := h.start_le
    have hnext : next ≤ stop := h.after.le_stop
    have hi' : i ≤ next := Nat.le_add_right i members.length
    -- the rows that waited, those of the group, and those behind it
    split_ifs <;> first | rfl | omega
  | case3 widths start i stop out hi =>
    -- the end is reached
    obtain rfl : i = stop := Nat.le_antisymm h.le_stop (Nat.le_of_not_lt hi)
    exact h.getElem?_writeLines hout k

end Layout

/-! ## Section 4: All rows -/

/-- At the start no row is held and no column has a width. -/
theorem grouped_start (padding : Nat) (rows : List Row) :
    Grouped padding rows [] 0 0 rows.length where
  start_le := le_refl 0
  le_stop := Nat.zero_le _
  stop_le := le_refl _
  widths_eq := fun _ _ _ => rfl
  reach := fun _ _ _ _ _ => Nat.zero_le _
  held := fun _ _ hk => absurd hk (Nat.not_lt_zero _)
  above := fun _ => .inr fun _ hl => absurd hl (Nat.succ_ne_zero _)
  below := fun row hrow => by
    rw [List.getElem?_eq_none (le_refl _)] at hrow
    cases hrow

/-- Every line of the aligned rows is the line of its row. -/
theorem getElem?_align (padding : Nat) (rows : List Row) (i : Nat) :
    (align padding rows)[i]? = rows[i]?.map (lineAt padding rows i) := by
  rw [align, getElem?_layOut (grouped_start padding rows) (List.length_map _)]
  by_cases hi : i < rows.length
  · rw [if_pos ⟨Nat.zero_le i, hi⟩]
  · have hi := Nat.le_of_not_lt hi
    rw [if_neg (by omega), List.getElem?_eq_none hi, List.getElem?_eq_none (by simpa using hi)]
    rfl

/-- The line of a row is its cells, each filled up with blanks to its width, and its tail. -/
theorem align_eq_mapIdx (padding : Nat) (rows : List Row) :
    align padding rows = rows.mapIdx fun i row =>
      (row.cells.mapIdx fun j cell =>
        cell ++ List.replicate (columnWidth padding rows i j - cell.length) ' ').flatten ++
      row.tail := by
  apply List.ext_getElem?
  intro i
  rw [getElem?_align, List.getElem?_mapIdx]
  exact Option.map_congr fun row _ => lineAt_eq padding rows i row

/-- Columns that only some of the rows have. -/
example : align 1 [⟨["@phpstan-type".toList, ['A'], "int".toList], []⟩,
      ⟨["@var".toList, "int".toList], "$x".toList⟩, ⟨["@author".toList], "Jack".toList⟩] =
    ["@phpstan-type A   int ".toList, "@var          int $x".toList,
      "@author       Jack".toList] := by decide

end Docblock.Row
