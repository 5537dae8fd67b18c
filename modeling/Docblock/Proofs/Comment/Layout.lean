import Docblock.Comment.Printer
import Docblock.Proofs.Comment.Prose

/-!
# The two layouts

The words of a printed comment, and how it is cut back into lines.  Both layouts are treated for
arbitrary rows without line breaks, whether or not they came from a comment.

- `exists_sources_printLines`: a line for every row.
- `exists_sources_printOneLine`: one row, on the line of the delimiters.
-/

namespace Docblock

open Lexeme (words words_eq_nil words_eq_cons words_eq_singleton words_eq_append)
open Text (Blanks)
open Word (source scan Stands)

/-! ## Section 1: Words of several lines -/

/-- Some lines, one after another, each with a line break after it. -/
inductive Joined : List (List Word) → List Word → Prop where
  | nil : Joined [] []
  | cons {line ws : List Word} {lines : List (List Word)} {n : Word} (hn : n.kind = .newline)
      (h : Joined lines ws) : Joined (line :: lines) (line ++ n :: ws)

/-- What holds of line breaks holds of all words if it holds on every line. -/
theorem Joined.mem_iff {lines : List (List Word)} {ws : List Word} (h : Joined lines ws)
    {P : Word → Prop} (hbreak : ∀ w : Word, w.kind = .newline → P w) :
    (∀ w ∈ ws, P w) ↔ ∀ l ∈ lines, ∀ w ∈ l, P w := by
  induction h with
  | nil => simp
  | @cons line ws lines n hn _ ih =>
    rw [List.forall_mem_append, List.forall_mem_cons, List.forall_mem_cons, ih]
    exact ⟨fun h => ⟨h.1, h.2.2⟩, fun h => ⟨h.1, hbreak n hn, h.2⟩⟩

/-- Texts with line breaks between them are scanned line by line. -/
theorem exists_joined (xs : List Text) (z : Text) :
    ∃ ws, Joined (xs.map (scan [])) ws ∧
      scan [] (xs.flatMap (· ++ ['\n']) ++ z) = ws ++ scan [] z := by
  induction xs with
  | nil => exact ⟨[], .nil, rfl⟩
  | cons x xs ih =>
    obtain ⟨ws, hws, hscan⟩ := ih
    obtain ⟨gap, hbreak⟩ := Word.scan_append_newline x (xs.flatMap (· ++ ['\n']) ++ z)
    refine ⟨scan [] x ++ ⟨.newline, ['\n'], gap⟩ :: ws, .cons rfl hws, ?_⟩
    rw [List.append_assoc, List.cons_append, ← hscan, ← hbreak]
    simp

/-- Joined lines are cut at their line breaks, and an empty line is left over at the end. -/
theorem split_joined {lines : List (List Word)} {ws : List Word} (h : Joined lines ws)
    (hlines : ∀ l ∈ lines, ∀ w ∈ l, w.kind ≠ .newline) {ts : List Lexeme} (hts : words ts = ws)
    (stop : Token) :
    ∃ sources : List SourceLine, List.Forall₂ (fun l s => words s.words = l) lines sources ∧
      (SourceLine.split stop ts).1 :: (SourceLine.split stop ts).2 = sources ++ [⟨[], stop⟩] := by
  induction h generalizing ts with
  -- nothing follows the last line break
  | nil =>
    obtain rfl := words_eq_nil.mp hts
    exact ⟨[], .nil, rfl⟩
  | @cons line ws lines n hn _ ih =>
    obtain ⟨hline, hlines⟩ := List.forall_mem_cons.mp hlines
    obtain ⟨us, us', rfl, hus, hus'⟩ := words_eq_append.mp hts
    obtain ⟨n, us'', rfl, rfl, hus''⟩ := words_eq_cons.mp hus'
    obtain ⟨sources, hsources, hsplit⟩ := ih hlines hus''
    have hbreak : ∀ t ∈ us, t.kind ≠ .newline := by
      intro t ht
      exact hline t.word (by rw [← hus]; exact List.mem_map_of_mem ht)
    refine ⟨⟨us, n.toToken⟩ :: sources, .cons hus hsources, ?_⟩
    rw [SourceLine.split_append_newline hbreak hn, List.cons_append, ← hsplit]

/-- Only the last line of joined lines is dropped, and it is empty. -/
theorem dropBlankEnd_joined {lines : List (List Word)} {sources : List SourceLine}
    (h : List.Forall₂ (fun l s => words s.words = l) lines sources) (stop : Token) :
    SourceLine.dropBlankEnd (sources ++ [⟨[], stop⟩]) = sources := by
  by_cases hne : sources = []
  · subst hne
    rfl
  · exact SourceLine.dropBlankEnd_append hne _ rfl

/-! ## Section 2: A line for every row -/

namespace Comment

variable {indent r : Text} {rows : List Text}

/-- The marker in front of a row. -/
def marker (indent : Text) : Word :=
  ⟨.asterisk, ['*'], indent ++ [' ']⟩

/-- A row behind its marker is scanned as the marker and the row. -/
theorem scan_marker (hindent : Blanks indent) (r : Text) :
    scan [] (indent ++ " *".toList ++ setOff r) = marker indent :: scan [] (setOff r) := by
  have hgap : Blanks (indent ++ [' ']) := List.forall_mem_append.mpr ⟨hindent, by simp [Text.isBlank]⟩
  have hforms : Token.Forms .asterisk ['*'] := rfl
  -- a row is set off by a blank, so the star stands alone
  have hgo : ∀ d ∈ (setOff r).head?, Token.goesOn .asterisk ['*'] d = false := by
    intro d hd
    unfold setOff at hd
    split at hd
    · cases hd
    · obtain rfl : ' ' = d := by simpa using hd
      rfl
  simpa [marker] using Word.scan_word hforms (by decide) hgap hgo

theorem scan_opening (hindent : Blanks indent) :
    scan [] (indent ++ "/**".toList) = [⟨.openDoc, "/**".toList, indent⟩] := by
  have hforms : Token.Forms .openDoc "/**".toList := rfl
  simpa using Word.scan_word (s := []) hforms (by decide) hindent (by simp)

/-- The end is the closing delimiter and the line break. -/
theorem scan_closing {b : Text} (hb : Blanks b) :
    scan [] (b ++ "*/\n".toList) =
      [⟨.closeDoc, "*/".toList, b⟩, ⟨.newline, ['\n'], []⟩] := by
  have hclose : Token.Forms .closeDoc "*/".toList := rfl
  have hbreak : Token.Forms .newline ['\n'] := rfl
  -- the line break behind the delimiter
  have hend := Word.scan_word (b := []) (s := []) hbreak (by decide) (by simp) (by simp)
  have := Word.scan_word (s := ['\n']) hclose (by decide) hb (fun d _ => rfl)
  rw [show scan [] ['\n'] = _ from hend] at this
  simpa using this

/-- The words of the layout with a line for every row. -/
theorem exists_words_printLines (hindent : Blanks indent) (rows : List Text) :
    ∃ n ws, n.kind = .newline ∧
      Joined (rows.map fun r => marker indent :: scan [] (setOff r)) ws ∧
      scan [] (printLines indent rows) =
        ⟨.openDoc, "/**".toList, indent⟩ :: n :: (ws ++
          [⟨.closeDoc, "*/".toList, indent ++ [' ']⟩, ⟨.newline, ['\n'], []⟩]) := by
  have hgap : Blanks (indent ++ [' ']) := List.forall_mem_append.mpr ⟨hindent, by simp [Text.isBlank]⟩
  obtain ⟨ws, hws, hscan⟩ := exists_joined
    ((indent ++ "/**".toList) :: rows.map fun r => indent ++ " *".toList ++ setOff r)
    ((indent ++ [' ']) ++ "*/\n".toList)
  -- each row is scanned behind its marker
  have hrows : (rows.map fun r => indent ++ " *".toList ++ setOff r).map (scan []) =
      rows.map fun r => marker indent :: scan [] (setOff r) := by
    rw [List.map_map]
    exact List.map_congr_left fun r _ => scan_marker hindent r
  rw [List.map_cons, scan_opening hindent, hrows] at hws
  cases hws with
  | @cons _ ws _ n hn hws =>
    refine ⟨n, ws, hn, hws, ?_⟩
    rw [scan_closing hgap] at hscan
    simpa [printLines, List.flatMap_map] using hscan

theorem lastGap_singleton (t : Lexeme) : lastGap [t] = t.gap := by
  cases h : t.gap <;> simp [lastGap, h]

/-- The parts of a comment are found by its delimiters, if only the last of its words but line
breaks closes it. -/
theorem parse_eq_ok_iff_of_parts {s : Text} {opening closing : Lexeme} {inside trail : List Lexeme}
    (hs : Lexeme.ofText s = opening :: (inside ++ closing :: trail)) (hopen : opening.kind = .openDoc)
    (hclose : closing.kind = .closeDoc) (htrail : ∀ t ∈ trail, t.kind = .newline) {c : Comment} :
    parse s = .ok c ↔ (∀ t ∈ inside, t.kind ≠ .closeDoc) ∧
      Line.readAll (SourceLine.content closing.toToken inside).2 = .ok c.lines ∧
      c.indent = opening.gap ∧ c.oneLine = (SourceLine.content closing.toToken inside).1 := by
  rw [parse_eq_ok_iff]
  constructor
  · rintro ⟨lead, opening', inside', closing', trail', hs', hlead, hopen', hinside, hclose', htrail',
      hlines, hindent, honeLine⟩
    rw [hs] at hs'
    -- the opening comes first, so nothing leads
    obtain rfl : lead = [] := by
      cases lead with
      | nil => rfl
      | cons t lead =>
        obtain ⟨rfl, -⟩ := List.cons.inj hs'
        have := hlead opening List.mem_cons_self
        rw [hopen] at this
        cases this
    obtain ⟨rfl, hparts⟩ := List.cons.inj hs'
    -- the closing delimiter is cut at the same place
    have hnot : closing ∉ inside' ∧ closing ∉ trail' := by
      refine ⟨fun h => hinside closing h hclose, fun h => ?_⟩
      have := htrail' closing h
      rw [hclose] at this
      cases this
    obtain ⟨rfl, rfl, rfl⟩ := (List.append_cons_inj_of_notMem hnot.1 hnot.2).mp hparts.symm
    rw [List.nil_append, lastGap_singleton] at hindent
    exact ⟨hinside, hlines, hindent, honeLine⟩
  · rintro ⟨hinside, hlines, hindent, honeLine⟩
    refine ⟨[], opening, inside, closing, trail, hs, by simp, hopen, hinside, hclose, htrail, hlines,
      ?_, honeLine⟩
    rw [List.nil_append, lastGap_singleton, hindent]

/-- The lines that are found in the layout with a line for every row. -/
theorem exists_sources_printLines (hindent : Blanks indent) (hrows : ∀ r ∈ rows, '\n' ∉ r) :
    ∃ sources : List SourceLine,
      List.Forall₂ (fun r s => words s.words = marker indent :: scan [] (setOff r)) rows sources ∧
      ∀ c, parse (printLines indent rows) = .ok c ↔
        (∀ r ∈ rows, ∀ w ∈ scan [] (setOff r), w.kind ≠ .closeDoc) ∧
        Line.readAll sources = .ok c.lines ∧ c.indent = indent ∧ c.oneLine = false := by
  obtain ⟨n, ws, hn, hws, hscan⟩ := exists_words_printLines hindent rows
  rw [← Word.words_ofText] at hscan
  -- the words in print are those of lexemes, part by part
  obtain ⟨opening, ts₁, hs, hopening, h₁⟩ := words_eq_cons.mp hscan
  obtain ⟨n, ts₂, rfl, rfl, h₂⟩ := words_eq_cons.mp h₁
  obtain ⟨us, ts₃, rfl, hus, h₃⟩ := words_eq_append.mp h₂
  obtain ⟨closing, ts₄, rfl, hclosing, h₄⟩ := words_eq_cons.mp h₃
  obtain ⟨nl, rfl, hnl⟩ := words_eq_singleton.mp h₄
  -- no row has a line break
  have hnewline : ∀ l ∈ rows.map (fun r => marker indent :: scan [] (setOff r)),
      ∀ w ∈ l, w.kind ≠ .newline := by
    intro l hl
    obtain ⟨r, hr, rfl⟩ := List.mem_map.mp hl
    refine List.forall_mem_cons.mpr ⟨by simp [marker], kind_ne_newline_of_scan ?_⟩
    unfold setOff
    split
    · simp
    · simpa using hrows r hr
  obtain ⟨sources, hsources, hsplit⟩ := split_joined hws hnewline hus closing.toToken
  refine ⟨sources, List.forall₂_map_left_iff.mp hsources, fun c => ?_⟩
  -- the break behind the opening delimiter makes this no comment on one line
  have hcontent : SourceLine.content closing.toToken (n :: us) = (false, sources) := by
    have hbreak : SourceLine.split closing.toToken ([] ++ n :: us) = _ :=
      SourceLine.split_append_newline (by simp) hn
    rw [List.nil_append] at hbreak
    rw [SourceLine.content, hbreak]
    simp only
    rw [hsplit, dropBlankEnd_joined hsources]
  have hparts : Lexeme.ofText (printLines indent rows) =
      opening :: (n :: us ++ closing :: [nl]) := by rw [hs, List.cons_append]
  rw [parse_eq_ok_iff_of_parts hparts
    (congrArg Word.kind hopening) (congrArg Word.kind hclosing)
    (by simpa using congrArg Word.kind hnl), hcontent]
  -- no marker and no line break closes a comment, so only the rows have to be looked at
  have hclosed : (∀ t ∈ n :: us, t.kind ≠ .closeDoc) ↔
      ∀ r ∈ rows, ∀ w ∈ scan [] (setOff r), w.kind ≠ .closeDoc := by
    have hall := hws.mem_iff (P := fun w => w.kind ≠ .closeDoc) (by intro w hw; simp [hw])
    rw [← hus] at hall
    simpa [words, show n.kind = .newline from hn, marker] using hall
  rw [hclosed, show opening.gap = indent from congrArg Word.gap hopening]

/-! ## Section 3: One row on one line -/

/-- A row that leaves a string open, which then takes in the closing delimiter behind it. -/
def StaysOpen (r : Text) : Prop :=
  ∃ w ∈ (scan [] (setOff r ++ [' '])).getLast?, Token.leavesOpen w.text = true

theorem goesOn_star {k : Kind} (hk : k ≠ .other) (t : Text) : Token.goesOn k t '*' = false := by
  cases k <;> simp_all [Token.goesOn] <;> decide

/-- What stands before the closing delimiter of a comment on one line. -/
theorem exists_words_append_closing {x : Text}
    (hopen : ∀ w ∈ (scan [] (x ++ [' '])).getLast?, Token.leavesOpen w.text = false) :
    ∃ b, scan [] (x ++ [' '] ++ "*/\n".toList) =
      scan [] (x ++ [' ']) ++ [⟨.closeDoc, "*/".toList, b⟩, ⟨.newline, ['\n'], []⟩] := by
  obtain ⟨tail, hx, hstands, htail⟩ := Word.exists_scan (x ++ [' '])
  refine ⟨tail, ?_⟩
  generalize scan [] (x ++ [' ']) = ws at *
  -- the last word stops before the delimiter
  have hnext : Stands ws (tail ++ "*/\n".toList).head? := by
    cases tail with
    | cons c tail => exact hstands
    | nil =>
      refine hstands.of_last fun w hw d hd => ?_
      obtain rfl : '*' = d := by simpa using hd
      by_cases hk : w.kind = .other
      · -- the last word ends in the blank, and it would go on only if it left a string open
        obtain ⟨init, rfl⟩ := List.getLast?_eq_some_iff.mp hw
        have hblank : ' ' ∈ w.text := by
          have hlast := congrArg List.getLast? hx
          have hne := Token.forms_ne_nil (hstands.sound w (by simp)).forms
          have heq : ' ' = w.text.getLast hne := by
            simpa [List.getLast?_append, List.getLast?_eq_some_getLast hne] using hlast
          rw [heq]
          exact List.getLast_mem hne
        rw [hk, Token.goesOn_other_of_mem_blank (by decide) hblank, hopen w hw]
        rfl
      · exact goesOn_star hk w.text
  rw [hx, List.append_assoc, Word.scan_source_append hnext, scan_closing htail]

/-- The lines that are found in the layout on one line: one, or none if the row is empty. -/
theorem exists_sources_printOneLine (hindent : Blanks indent) (hr : '\n' ∉ r)
    (hopen : ¬StaysOpen r) :
    ∃ sources : List SourceLine,
      List.Forall₂ (fun ws s => words s.words = ws)
        ([scan [] (setOff r ++ [' '])].filter (!·.isEmpty)) sources ∧
      ∀ c, parse (printOneLine indent r) = .ok c ↔
        (∀ w ∈ scan [] (setOff r ++ [' ']), w.kind ≠ .closeDoc) ∧
        Line.readAll sources = .ok c.lines ∧ c.indent = indent ∧ c.oneLine = true := by
  have hopen' : ∀ w ∈ (scan [] (setOff r ++ [' '])).getLast?, Token.leavesOpen w.text = false := by
    intro w hw
    by_contra h
    exact hopen ⟨w, hw, by simpa using h⟩
  obtain ⟨b, hb⟩ := exists_words_append_closing hopen'
  have hforms : Token.Forms .openDoc "/**".toList := rfl
  have hscan : scan [] (printOneLine indent r) = ⟨.openDoc, "/**".toList, indent⟩ ::
      (scan [] (setOff r ++ [' ']) ++ [⟨.closeDoc, "*/".toList, b⟩, ⟨.newline, ['\n'], []⟩]) := by
    rw [← hb, ← Word.scan_word hforms (by decide) hindent fun d _ => rfl]
    simp [printOneLine]
  rw [← Word.words_ofText] at hscan
  -- the words in print are those of lexemes, part by part
  obtain ⟨opening, ts₁, hs, hopening, h₁⟩ := words_eq_cons.mp hscan
  obtain ⟨us, ts₂, rfl, hus, h₂⟩ := words_eq_append.mp h₁
  obtain ⟨closing, ts₃, rfl, hclosing, h₃⟩ := words_eq_cons.mp h₂
  obtain ⟨nl, rfl, hnl⟩ := words_eq_singleton.mp h₃
  have hnewline : ∀ t ∈ us, t.kind ≠ .newline := by
    have hno : '\n' ∉ setOff r ++ [' '] := by
      unfold setOff
      split
      · simp
      · simpa using hr
    have := kind_ne_newline_of_scan hno
    rw [← hus] at this
    simpa [words] using this
  have hcontent : SourceLine.content closing.toToken us =
      (true, SourceLine.dropBlankEnd [⟨us, closing.toToken⟩]) := by
    rw [SourceLine.content, SourceLine.split_of_no_newline hnewline]
    cases us <;> rfl
  -- an empty row is a blank line, which does not count
  refine ⟨SourceLine.dropBlankEnd [⟨us, closing.toToken⟩], ?_, fun c => ?_⟩
  · rw [← hus]
    cases us with
    | nil => exact .nil
    | cons u us => exact .cons rfl .nil
  · rw [parse_eq_ok_iff_of_parts hs (congrArg Word.kind hopening) (congrArg Word.kind hclosing)
      (by simpa using congrArg Word.kind hnl), hcontent,
      show opening.gap = indent from congrArg Word.gap hopening, ← hus]
    simp [words]

end Comment

end Docblock
