import Docblock.Proofs.Columns
import Docblock.Proofs.Text.Trim
import Mathlib.Data.List.Forall2

/-!
# Aligned rows

However wide its columns are, an aligned row is its cells and its tail, in order, with blanks
between them.  `Padded` and `Spread` say this of the laid out cells and of the whole line.

- `padded_mapIdx`: cells that are filled up.
- `align_padded`: the lines of all rows.
- `exists_spread`: the line of a row, without the blanks at its end.
-/

namespace Docblock.Row

open Text (Blanks EndsOff)

/-! ## Section 1: The columns of a row -/

/-- Cells one after another, each filled up with at least one blank. -/
inductive Padded : List Text → Text → Prop where
  | nil : Padded [] []
  | cons {cell b text : Text} {cells : List Text} (hb : Blanks b) (hne : b ≠ [])
      (h : Padded cells text) : Padded (cell :: cells) (cell ++ (b ++ text))

/-- Cells are laid out if each of them is followed by at least one blank. -/
theorem padded_mapIdx {cells : List Text} {fill : Nat → Text → Text}
    (h : ∀ j, ∀ cell ∈ cells[j]?, ∃ b, Blanks b ∧ b ≠ [] ∧ fill j cell = cell ++ b) :
    Padded cells (cells.mapIdx fill).flatten := by
  induction cells generalizing fill with
  | nil => exact .nil
  | cons cell cells ih =>
    obtain ⟨b, hb, hne, hfill⟩ := h 0 cell rfl
    rw [List.mapIdx_cons, List.flatten_cons, hfill, List.append_assoc]
    exact .cons hb hne (ih fun j => h (j + 1))

/-- A cell that is shorter than its column is padded with at least one blank. -/
theorem exists_pad {width : Nat} {cell : Text} (h : cell.length < width) :
    ∃ b, Blanks b ∧ b ≠ [] ∧ pad width cell = cell ++ b := by
  refine ⟨List.replicate (width - cell.length) ' ', ?_, ?_, rfl⟩
  · intro c hc
    obtain ⟨-, rfl⟩ := List.mem_replicate.mp hc
    rfl
  · rw [Ne, List.replicate_eq_nil_iff]
    omega

/-- All cells of all rows are laid out, and the tails are put behind them. -/
theorem align_padded {padding : Nat} (hpad : 0 < padding) (rows : List Row) :
    List.Forall₂ (fun row line => ∃ laid, Padded row.cells laid ∧ line = laid ++ row.tail) rows
      (align padding rows) := by
  have hlength : rows.length = (align padding rows).length := by
    rw [align, length_layOut, List.length_map]
  rw [List.forall₂_iff_get]
  refine ⟨hlength, fun i hi hi' => ?_⟩
  -- line by line
  have hline := getElem?_align padding rows i
  rw [List.getElem?_eq_getElem hi, List.getElem?_eq_getElem hi', Option.map_some,
    Option.some_inj] at hline
  rw [List.get_eq_getElem, List.get_eq_getElem, hline, lineAt_eq]
  refine ⟨_, padded_mapIdx fun j cell hcell => exists_pad ?_, rfl⟩
  exact length_lt_columnWidth hpad (List.getElem?_eq_getElem hi) hcell

/-! ## Section 2: The line of a row -/

/-- Pieces one after another, each set off by at least one blank. -/
inductive Spread : List Text → Text → Prop where
  | nil : Spread [] []
  | cons {p b y : Text} {ps : List Text} (hb : Blanks b) (hne : b ≠ []) (h : Spread ps y) :
      Spread (p :: ps) (b ++ (p ++ y))

theorem Spread.append {ps qs : List Text} {y z : Text} (hps : Spread ps y) (hqs : Spread qs z) :
    Spread (ps ++ qs) (y ++ z) := by
  induction hps with
  | nil => exact hqs
  | cons hb hne _ ih => simpa using Spread.cons hb hne ih

/-- Parts are spread together exactly if a front is and the rest is. -/
theorem spread_append_iff {ps qs : List Text} {x : Text} :
    Spread (ps ++ qs) x ↔ ∃ y z, x = y ++ z ∧ Spread ps y ∧ Spread qs z := by
  constructor
  · intro h
    induction ps generalizing x with
    | nil => exact ⟨[], x, rfl, .nil, h⟩
    -- the first part is in front
    | cons p ps ih =>
      cases h with
      | @cons _ b x _ hb hne h =>
        obtain ⟨y, z, rfl, hy, hz⟩ := ih h
        exact ⟨b ++ (p ++ y), z, by simp, .cons hb hne hy, hz⟩
  · rintro ⟨y, z, rfl, hy, hz⟩
    exact hy.append hz

/-- What is spread begins with a blank. -/
theorem Spread.head {ps : List Text} {y : Text} (h : Spread ps y) :
    ∀ c ∈ y.head?, Text.isBlank c = true := by
  cases h with
  | nil => simp
  | cons hb hne _ =>
    intro c hc
    rw [List.head?_append_of_ne_nil _ hne] at hc
    exact hb.head c hc

/-- Laid out cells are the first, the others spread after it, and the blanks after the last. -/
theorem Padded.exists_spread {cell : Text} {cells : List Text} {laid : Text}
    (h : Padded (cell :: cells) laid) :
    ∃ y b, laid = cell ++ (y ++ b) ∧ Spread cells y ∧ Blanks b ∧ b ≠ [] := by
  induction cells generalizing cell laid with
  | nil =>
    cases h with
    | @cons _ b _ _ hb hne h =>
      cases h
      exact ⟨[], b, by simp, .nil, hb, hne⟩
  -- the blanks behind a cell stand before the next one
  | cons c cells ih =>
    cases h with
    | @cons _ b _ _ hb hne h =>
      obtain ⟨y, b', rfl, hy, hb', hne'⟩ := ih h
      exact ⟨b ++ (c ++ y), b', by simp, .cons hb hne hy, hb', hne'⟩

/-- The parts of a tail, after some blanks. -/
theorem spread_intercalate {p b : Text} (ps : List Text) (hb : Blanks b) (hne : b ≠ []) :
    Spread (p :: ps) (b ++ List.intercalate [' '] (p :: ps)) := by
  induction ps generalizing p b with
  | nil => simpa using Spread.cons (p := p) hb hne .nil
  | cons q ps ih =>
    have := Spread.cons (p := p) hb hne (ih (p := q) (b := [' ']) (by simp [Blanks]; decide) (by simp))
    rw [List.intercalate_cons_cons]
    simpa using this

/-- A piece of a line: it is not empty, and no blanks stand at its end. -/
def Solid (p : Text) : Prop :=
  p ≠ [] ∧ EndsOff Text.isBlank p

/-- If no part ends with a blank, the text they are spread behind does not either. -/
theorem Spread.endsOff {ps : List Text} {y : Text} (h : Spread ps y) (hps : ∀ p ∈ ps, Solid p)
    {x : Text} (hx : EndsOff Text.isBlank x) : EndsOff Text.isBlank (x ++ y) := by
  induction h generalizing x with
  | nil => simpa using hx
  -- the text ends as its last part does
  | @cons p b y ps _ _ _ ih =>
    obtain ⟨hp, hps⟩ := List.forall_mem_cons.mp hps
    have := ih hps (x := x ++ (b ++ p)) (by
      rw [← List.append_assoc, Text.endsOff_append hp.1]
      exact hp.2)
    simpa using this

/-- The line of a row with cells: the first cell, and everything else spread after it. -/
theorem exists_spread {cell laid : Text} {cells parts : List Text} (h : Padded (cell :: cells) laid)
    (hcell : EndsOff Text.isBlank cell) (hcells : ∀ p ∈ cells, Solid p)
    (hparts : ∀ p ∈ parts, Solid p) :
    ∃ y, Text.trimLine (laid ++ List.intercalate [' '] parts) = cell ++ y ∧
      Spread (cells ++ parts) y := by
  obtain ⟨y, b, rfl, hy, hb, hne⟩ := h.exists_spread
  cases parts with
  -- without parts in the tail, the blanks behind the last cell are trimmed
  | nil =>
    refine ⟨y, ?_, by simpa using hy⟩
    have := Text.trimLine_append (hy.endsOff hcells hcell) hb
    simpa [List.intercalate] using this
  -- otherwise they set off the first part of the tail
  | cons p parts =>
    have hspread := hy.append (spread_intercalate parts hb hne (p := p))
    refine ⟨_, ?_, hspread⟩
    have hend := hspread.endsOff (List.forall_mem_append.mpr ⟨hcells, hparts⟩) hcell
    have := Text.trimLine_eq_self hend
    simpa using this

end Docblock.Row
