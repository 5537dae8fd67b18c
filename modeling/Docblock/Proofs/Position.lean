import Docblock.Position
import Mathlib.Data.List.Induction
import Mathlib.Data.List.TakeWhile
import Mathlib.Tactic.Common

/-!
# Positions carried along and positions computed

A position in a text is known in three ways: it is carried along while the text is read, it is
computed from a byte offset, or it is found in a part of the text and moved to the whole.  This
module shows that they agree: each of them is the position after the characters that stand before.

## Contents

1. `takeBytes_append`: the cut at a byte offset between two characters.
2. `line_advance`, `ofOffset_append`: positions that are carried along, and the position of an offset.
3. `within_advance`: a position in a part, moved to the whole.
4. `Before`: reading on leads to later positions.
-/

namespace Docblock

/-! ## Section 1: Cutting at a byte offset -/

namespace Text

@[simp] theorem byteSize_nil : byteSize [] = 0 := rfl

@[simp] theorem byteSize_cons (c : Char) (s : Text) :
    byteSize (c :: s) = c.utf8Size + byteSize s := rfl

@[simp] theorem byteSize_append (s t : Text) : byteSize (s ++ t) = byteSize s + byteSize t := by
  induction s with
  | nil => rw [List.nil_append, byteSize_nil, Nat.zero_add]
  | cons c s ih => rw [List.cons_append, byteSize_cons, byteSize_cons, ih, Nat.add_assoc]

/-- Bytes that reach over the first part of a text take all of it. -/
theorem takeBytes_append (pre post : Text) (n : Nat) :
    takeBytes (byteSize pre + n) (pre ++ post) = pre ++ takeBytes n post := by
  induction pre with
  -- nothing to take
  | nil => simp
  | cons c pre ih =>
    -- the first character fits, and the others keep their count
    have hfits : c.utf8Size ≤ byteSize (c :: pre) + n := by
      rw [byteSize_cons]
      omega
    have hleft : byteSize (c :: pre) + n - c.utf8Size = byteSize pre + n := by
      rw [byteSize_cons]
      omega
    rw [List.cons_append, takeBytes, if_pos hfits, hleft, ih]
    rfl

theorem takeBytes_zero (s : Text) : takeBytes 0 s = [] := by
  cases s with
  | nil => rfl
  | cons c s =>
    -- a character takes at least one byte
    have hpos : ¬c.utf8Size ≤ 0 := Nat.not_le.mpr c.utf8Size_pos
    rw [takeBytes, if_neg hpos]

/-- The cut between two parts of a text. -/
theorem takeBytes_byteSize (pre post : Text) : takeBytes (byteSize pre) (pre ++ post) = pre := by
  have hcut := takeBytes_append pre post 0
  rwa [Nat.add_zero, takeBytes_zero, List.append_nil] at hcut

/-- The line in which a text ends goes on with each character that is no line break. -/
theorem lastLine_concat (s : Text) (c : Char) :
    lastLine (s ++ [c]) = if c = '\n' then [] else lastLine s ++ [c] := by
  unfold lastLine
  rw [List.reverse_append, List.reverse_singleton, List.singleton_append]
  -- seen from the end, the last line is what comes before the first line break
  by_cases hc : c = '\n'
  · rw [if_pos hc, List.takeWhile_cons_of_neg (by simp [hc]), List.reverse_nil]
  · rw [if_neg hc, List.takeWhile_cons_of_pos (by simp [hc]), List.reverse_cons]

end Text

namespace Position

/-! ## Section 2: Positions of byte offsets -/

@[simp] theorem advance_nil (p : Position) : p.advance [] = p := rfl

@[simp] theorem advance_cons (p : Position) (c : Char) (s : Text) :
    p.advance (c :: s) = (p.step c).advance s := rfl

theorem advance_append (p : Position) (s t : Text) :
    p.advance (s ++ t) = (p.advance s).advance t :=
  List.foldl_append

/-- A text without line breaks stays on the line. -/
theorem line_advance {s : Text} (hs : '\n' ∉ s) (p : Position) : (p.advance s).line = p.line := by
  induction s generalizing p with
  | nil => rfl
  | cons c s ih =>
    obtain ⟨hc, hs⟩ := not_or.mp (mt List.mem_cons.mpr hs)
    rw [advance_cons, ih hs, step, if_neg (Ne.symm hc)]

/-- A line break leads to the beginning of the next line. -/
theorem step_advance {s : Text} (hs : '\n' ∉ s) (p : Position) :
    (p.advance s).step '\n' = ⟨p.line + 1, 1⟩ := by
  rw [step, if_pos rfl, line_advance hs]

/-- Counting line breaks and measuring the last line gives the position that was carried along. -/
theorem advance_start (s : Text) :
    start.advance s = ⟨s.count '\n' + 1, (Text.lastLine s).length + 1⟩ := by
  -- the position after one more character depends on the last line, so characters come at the end
  induction s using List.reverseRecOn with
  | nil => rfl
  | append_singleton s c ih =>
    rw [advance_append, ih, advance_cons, advance_nil, step, Text.lastLine_concat]
    by_cases hc : c = '\n'
    · simp [hc]
    · simp [hc]

/-- An offset between two parts of a text has the position that the first part leads to. -/
theorem ofOffset_append (pre post : Text) :
    ofOffset (pre ++ post) (Text.byteSize pre) = start.advance pre := by
  rw [ofOffset, Text.takeBytes_byteSize, advance_start]

/-! ## Section 3: Positions in a part of a text -/

/-- One character read in the part is one character read in the whole. -/
theorem within_step (base : Position) {rel : Position} (hline : 1 ≤ rel.line)
    (hcolumn : 1 ≤ rel.column) (c : Char) :
    base.within (rel.step c) = (base.within rel).step c := by
  unfold within step
  by_cases hc : c = '\n'
  · -- the part leaves its first line here, at the latest
    have hlater : ¬rel.line + 1 ≤ 1 := by omega
    simp only [if_pos hc, if_neg hlater]
    split
    · simp only [mk.injEq, and_true]
      omega
    · simp only [mk.injEq, and_true]
      omega
  · simp only [if_neg hc]
    -- on its first line the part is shifted by the column of its beginning, on others not at all
    split
    · simp only [mk.injEq, true_and]
      omega
    · rfl

theorem one_le_step {p : Position} (hline : 1 ≤ p.line) (c : Char) :
    1 ≤ (p.step c).line ∧ 1 ≤ (p.step c).column := by
  unfold step
  split
  · -- a line break leads to the first column of the next line
    exact ⟨by simp, le_refl 1⟩
  · exact ⟨hline, by simp⟩

/-- Moving inside a part of a text is moving in the whole text. -/
theorem within_advance_of_le (base : Position) {rel : Position} (hline : 1 ≤ rel.line)
    (hcolumn : 1 ≤ rel.column) (s : Text) :
    base.within (rel.advance s) = (base.within rel).advance s := by
  -- induction on the text; each step stays behind the base
  induction s generalizing rel with
  | nil => rfl
  | cons c s ih =>
    obtain ⟨hline', hcolumn'⟩ := one_le_step hline c
    rw [advance_cons, advance_cons, ih hline' hcolumn', within_step base hline hcolumn]

/-- What is found in a part after some characters stands in the whole after these characters. -/
theorem within_advance (base : Position) (s : Text) :
    base.within (start.advance s) = base.advance s :=
  within_advance_of_le base (le_refl 1) (le_refl 1) s

/-- A part that starts after `before` has its offsets moved by the bytes of `before`. -/
theorem within_ofOffset (before pre post after : Text) :
    (start.advance before).within (ofOffset (pre ++ post) (Text.byteSize pre)) =
      ofOffset (before ++ (pre ++ post) ++ after) (Text.byteSize before + Text.byteSize pre) := by
  have hwhole : before ++ (pre ++ post) ++ after = (before ++ pre) ++ (post ++ after) := by
    simp
  rw [ofOffset_append, within_advance, hwhole, ← Text.byteSize_append, ofOffset_append,
    advance_append]

/-! ## Section 4: Earlier and later -/

/-- A position stands before another one: on an earlier line, or further left on the same. -/
def Before (p q : Position) : Prop :=
  p.line < q.line ∨ p.line = q.line ∧ p.column < q.column

theorem Before.trans {p q r : Position} (hpq : Before p q) (hqr : Before q r) : Before p r := by
  unfold Before at *
  omega

theorem before_step (p : Position) (c : Char) : Before p (p.step c) := by
  unfold Before step
  split
  · exact .inl (Nat.lt_succ_self _)
  · exact .inr ⟨rfl, Nat.lt_succ_self _⟩

/-- Reading at least one character leads to a later position. -/
theorem before_advance (p : Position) {s : Text} (hs : s ≠ []) : Before p (p.advance s) := by
  induction s generalizing p with
  | nil => exact absurd rfl hs
  | cons c s ih =>
    cases s with
    | nil => exact before_step p c
    | cons d s => exact (before_step p c).trans (ih (p.step c) (List.cons_ne_nil d s))

theorem eq_or_before_advance (p : Position) (s : Text) :
    p.advance s = p ∨ p.Before (p.advance s) := by
  by_cases hs : s = []
  · rw [hs]
    exact .inl rfl
  · exact .inr (p.before_advance hs)

end Position

end Docblock
