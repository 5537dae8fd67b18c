import Docblock.Proofs.Comment.Layout
import Docblock.Proofs.Comment.Reprint
import Mathlib

/-!
# Comments read back

A comment of plain text that was read is read again, as the same tree, from its layout with a line
for every row: every line is read back from its row (`reads_row`), and the layout is cut back into
its rows (`Comment.exists_sources_printLines`).
-/

namespace Docblock

open Lexeme (words words_eq_cons)
open Text (Blanks Plain)
open Word (source scan Stands)

namespace Comment

/-! ## Section 1: Rows read back -/

theorem scan_setOff (r : Text) : scan [] (setOff r) = scan [] ([' '] ++ (r ++ [])) := by
  unfold setOff
  split
  · -- an empty row leaves blanks
    next h =>
    rw [List.isEmpty_iff.mp h, Word.scan_nil, Word.scan_of_blanks (show Blanks _ by decide)]
  · simp

/-- A line that is read back behind its marker. -/
theorem read_of_readBack {l : Line} {r : Text} {source : SourceLine} {indent : Text}
    (h : ReadBack (scan [] (setOff r)) l)
    (hsource : words source.words = marker indent :: scan [] (setOff r)) :
    Line.read source = .ok l := by
  obtain ⟨m, us, hwords, hm, hus⟩ := words_eq_cons.mp hsource
  rw [Line.read_eq_ok_iff, hwords]
  have hkind : m.kind = .asterisk := congrArg Word.kind hm
  simp only [Line.dropMarker, hkind, if_true]
  exact h.2 us hus

/-- In a comment of plain text every line that does not run on reads back from its row. -/
theorem readBack_body {s : Text} {c : Comment} (h : parse s = .ok c) (hplain : Plain s)
    (hrun : ∀ l ∈ c.lines, l.runsOn = false) {b e : Text} (hb : Blanks b) (he : Blanks e) :
    List.Forall₂ (fun l r => ReadBack (scan [] (b ++ (r ++ e))) l) c.lines c.body := by
  have hrows : List.Forall₂ (fun l r => l ∈ c.lines ∧ Line.PrintsAs l r) c.lines c.body :=
    (List.forall₂_and_left _ _).mpr ⟨fun l hl => hl, c.printsAs_body⟩
  refine hrows.imp ?_
  rintro l r ⟨hl, hrow⟩
  -- each line comes from a part of the text, so its words are plain
  obtain ⟨a, ts, b', hpart, -, hts, hread⟩ := exists_lexemes_of_mem h l hl
  exact reads_row hts (plain_of_part hplain ⟨a, b', hpart⟩) hread hrow (hrun l hl) hb he

/-- Lines that are read back from the sources of their rows. -/
theorem readAll_of_readBack {indent : Text} {lines : List Line} {rows : List Text}
    {sources : List SourceLine}
    (hback : List.Forall₂ (fun l r => ReadBack (scan [] (setOff r)) l) lines rows)
    (hsources : List.Forall₂ (fun r s => words s.words = marker indent :: scan [] (setOff r)) rows
      sources) : Line.readAll sources = .ok lines := by
  rw [Line.readAll_eq_ok_iff]
  -- line by line
  induction hback generalizing sources with
  | nil =>
    cases hsources
    exact .nil
  | cons hl _ ih =>
    cases hsources with
    | cons hs hsources => exact .cons (read_of_readBack hl hs) (ih hsources)

/-- A comment of plain text in which no tag runs on reads back from its lines. -/
theorem parse_printLines_of_not_runsOn {s : Text} {c : Comment} (h : parse s = .ok c)
    (hplain : Plain s) (hrun : ∀ l ∈ c.lines, l.runsOn = false) :
    parse (printLines c.indent c.body) = .ok { c with oneLine := false } := by
  have hback : List.Forall₂ (fun l r => ReadBack (scan [] (setOff r)) l) c.lines c.body := by
    refine (readBack_body h hplain hrun (b := [' ']) (e := []) (by decide) (by decide)).imp ?_
    intro l r hl
    rwa [scan_setOff]
  obtain ⟨sources, hsources, hparse⟩ :=
    exists_sources_printLines (blanks_indent h) (not_mem_newline_body h)
  rw [hparse]
  refine ⟨?_, readAll_of_readBack hback hsources, rfl, rfl⟩
  intro r hr
  obtain ⟨l, -, hl⟩ := exists_of_forall₂_right hback hr
  exact hl.1

/-! ## Section 2: The layout with a line for every row -/

/-- The layout with a line for every row loses nothing of a comment of plain text. -/
theorem parse_print_of_lines {s : Text} {c : Comment} (h : parse s = .ok c)
    (hspace : ∀ x ∈ s, Text.isSpace x = true → x = ' ' ∨ x = '\t' ∨ x = '\n')
    (hparen : ∀ t, .tag t ∈ c.lines → t.desc.head? ≠ some '(') :
    parse (print { c with oneLine := false }) = .ok { c with oneLine := false } := by
  have hrun : ∀ l ∈ c.lines, l.runsOn = false := by
    intro l hl
    cases l with
    | text => rfl
    -- a tag runs on only into a parenthesis
    | tag t => simp [Line.runsOn, Tag.runsOn, hparen t hl]
  have hprint : print { c with oneLine := false } = printLines c.indent c.body := rfl
  rw [hprint]
  exact parse_printLines_of_not_runsOn h hspace hrun

/-- A tag with an `&` that is handed back and a quote that stays open. -/
theorem parse_print_of_lines_amp :
    ∃ c, parse "/**\t@var A & , 'b\n*/".toList = .ok c ∧
      parse (print { c with oneLine := false }) = .ok { c with oneLine := false } := by
  have hts : Lexeme.ofText "/**\t@var A & , 'b\n*/".toList =
      [⟨⟨.openDoc, "/**".toList, ⟨1, 1⟩⟩, []⟩, ⟨⟨.tag, "@var".toList, ⟨1, 5⟩⟩, ['\t']⟩,
       ⟨⟨.ident, ['A'], ⟨1, 10⟩⟩, [' ']⟩, ⟨⟨.amp, ['&'], ⟨1, 12⟩⟩, [' ']⟩,
       ⟨⟨.comma, [','], ⟨1, 14⟩⟩, [' ']⟩, ⟨⟨.other, "'b".toList, ⟨1, 16⟩⟩, [' ']⟩,
       ⟨⟨.newline, ['\n'], ⟨1, 18⟩⟩, []⟩, ⟨⟨.closeDoc, "*/".toList, ⟨2, 1⟩⟩, []⟩] := by
    cbv
  have h : parse "/**\t@var A & , 'b\n*/".toList =
      .ok ⟨[.tag (.var (.named (.single ['A'])) none "&, 'b".toList)], [], true⟩ := by
    rw [parse, hts]
    rfl
  refine ⟨_, h, parse_print_of_lines h (show Plain _ by decide) ?_⟩
  intro t ht
  obtain rfl : t = .var (.named (.single ['A'])) none "&, 'b".toList := by simpa using ht
  decide

end Comment

end Docblock
