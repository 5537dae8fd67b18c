import Docblock.Proofs.Comment.RoundTrip

/-!
# Printing a printed comment

A comment of plain text in which no tag runs on is printed the same once it has been printed.  With
a line for every row it is read back as it was.  On one line its row stands between the delimiters,
so there must be no string in it that takes in the closing one, and nothing at its front that is
taken for the marker of a line.

1. Rows begin with what they show.
2. `parse_printOneLine`: one row on one line.
3. `exists_parse_print`: both layouts.
-/

namespace Docblock

open Lexeme (words words_eq_cons)
open Text (Blanks Plain)
open Word (source scan Stands)

/-! ## Section 1: The front of a row -/

/-- Trimming the end leaves a front that is no blank. -/
theorem Text.head?_trimLine {c : Char} (hc : isBlank c = false) (z : Text) :
    (trimLine (c :: z)).head? = some c := by
  obtain ⟨e, he, hblanks, -⟩ := exists_dropEndWhile isBlank (c :: z)
  cases htrim : dropEndWhile isBlank (c :: z) with
  -- if nothing were left, the first character would be a blank
  | nil =>
    rw [htrim, List.nil_append] at he
    have := hblanks c (by simp [← he])
    rw [hc] at this
    cases this
  | cons d x =>
    rw [htrim] at he
    rw [trimLine, htrim, (List.cons.inj he).1]
    rfl

/-- The row of a tag begins with its sign. -/
theorem Tag.head?_of_printsAs {t : Tag} {r : Text} (h : (Line.tag t).PrintsAs r) :
    r.head? = some '@' := by
  obtain ⟨laid, hlaid, rfl⟩ := h
  obtain ⟨cells, hcells⟩ : ∃ cells, t.row.cells = t.name :: cells := by
    unfold Tag.row
    split <;> exact ⟨_, rfl⟩
  rw [show (Line.tag t).row.cells = t.name :: cells from hcells] at hlaid
  cases hlaid
  exact Text.head?_trimLine rfl _

/-- No row begins with a blank. -/
theorem Comment.head_of_mem_body {s : Text} {c : Comment} (h : parse s = .ok c) {r : Text}
    (hr : r ∈ c.body) : ∀ d ∈ r.head?, Text.isBlank d = false := by
  obtain ⟨l, hl, hrow⟩ := exists_of_forall₂_right c.printsAs_body hr
  obtain ⟨a, ts, b, -, -, -, hread⟩ := exists_lexemes_of_mem h l hl
  cases hread with
  | tag ht hread =>
    rw [Tag.head?_of_printsAs hrow]
    rintro _ ⟨⟩
    rfl
  -- free text was trimmed
  | text hfirst =>
    have htrimmed : Text.Trimmed (restOfLine ts) := Text.trimmed_trim _
    obtain ⟨laid, hlaid, rfl⟩ := hrow
    cases hlaid
    rw [show Text.trimLine ([] ++ (Line.text (restOfLine ts)).row.tail) = restOfLine ts from
      Text.trimLine_eq_self (Text.endsOff_isBlank htrimmed.back)]
    intro d hd
    by_contra hblank
    have hspace := Text.isSpace_of_isBlank (Bool.not_eq_false _ ▸ hblank)
    rw [htrimmed.front d hd] at hspace
    cases hspace

namespace Comment

/-! ## Section 2: One row on one line -/

/-- A row that can stand on one line with the delimiters. -/
structure FitsOneLine (r : Text) : Prop where
  closed : ¬StaysOpen r
  unmarked : r.head? ≠ some '*'

theorem not_staysOpen_nil : ¬StaysOpen [] := by
  rintro ⟨w, hw, -⟩
  rw [show setOff [] ++ [' '] = [' '] from rfl,
    Word.scan_of_blanks (show Blanks _ by decide)] at hw
  cases hw

/-- The first word of a row that is set off. -/
theorem exists_scan_setOff {r : Text} (hne : r ≠ [])
    (hhead : ∀ d ∈ r.head?, Text.isBlank d = false) (e : Text) :
    ∃ w ws, scan [] (setOff r ++ e) = w :: ws ∧ w.text.head? = r.head? ∧ w.gap = [' '] := by
  obtain ⟨c, r, rfl⟩ := List.exists_cons_of_ne_nil hne
  obtain ⟨k, t, rest, htext, -, hforms, hgo⟩ := Token.exists_forms (List.cons_ne_nil c (r ++ e))
  obtain ⟨d, t, rfl⟩ := List.exists_cons_of_ne_nil (Token.forms_ne_nil hforms)
  obtain ⟨rfl, htext⟩ := List.cons.inj htext
  -- the row begins with no blank
  have hk : k ≠ .blank := by
    rintro rfl
    cases Token.shape_of_forms hforms with
    | symbol h => cases h
    | blank h => simpa [h c] using hhead c
  refine ⟨⟨k, c :: t, [' ']⟩, scan [] rest, ?_, rfl, rfl⟩
  have hsource : setOff (c :: r) ++ e = [' '] ++ (c :: t ++ rest) := by
    rw [List.cons_append, ← htext]
    rfl
  rw [hsource, Word.scan_word hforms hk (show Blanks _ by decide) hgo]

/-- The first word of a row is no marker unless the row begins with one. -/
theorem dropMarker_of_scan {r e : Text} (hne : r ≠ [])
    (hhead : ∀ d ∈ r.head?, Text.isBlank d = false) (hstar : r.head? ≠ some '*') {us : List Lexeme}
    (hus : words us = scan [] (setOff r ++ e)) : Line.dropMarker us = us := by
  obtain ⟨w, ws, hscan, hfirst, -⟩ := exists_scan_setOff hne hhead e
  obtain ⟨tail, -, hstands, -⟩ := Word.exists_scan (setOff r ++ e)
  rw [hscan] at hus hstands
  obtain ⟨u, us, rfl, hu, -⟩ := words_eq_cons.mp hus
  rw [Line.dropMarker, if_neg]
  intro hkind
  -- a marker would be the first character of the row
  have hforms : Token.Forms .asterisk w.text := by
    have hk : w.kind = .asterisk := by rw [← hu]; exact hkind
    rw [← hk]
    exact hstands.1.forms
  rw [Token.eq_of_forms_symbol hforms rfl] at hfirst
  exact hstar hfirst.symm

/-- A comment without a row reads back from its print. -/
theorem parse_printOneLine_nil {indent : Text} (hindent : Blanks indent) :
    parse (printOneLine indent []) = .ok ⟨[], indent, true⟩ := by
  obtain ⟨sources, hsources, hparse⟩ :=
    exists_sources_printOneLine hindent List.not_mem_nil not_staysOpen_nil
  have hscan : scan [] (setOff [] ++ [' ']) = [] :=
    Word.scan_of_blanks (show Blanks _ by decide) []
  rw [hscan] at hsources hparse
  cases hsources
  rw [hparse]
  exact ⟨by simp, rfl, rfl, rfl⟩

/-- The line that is found in the layout on one line, if the row is not empty. -/
theorem exists_source_printOneLine {indent r : Text} (hindent : Blanks indent) (hr : '\n' ∉ r)
    (hne : r ≠ []) (hhead : ∀ d ∈ r.head?, Text.isBlank d = false) (hopen : ¬StaysOpen r) :
    ∃ source : SourceLine, words source.words = scan [] (setOff r ++ [' ']) ∧
      ∀ c, parse (printOneLine indent r) = .ok c ↔
        (∀ w ∈ scan [] (setOff r ++ [' ']), w.kind ≠ .closeDoc) ∧
        (∃ l, ReadsAs (Line.dropMarker source.words) l ∧ c = ⟨[l], indent, true⟩) := by
  obtain ⟨sources, hsources, hparse⟩ := exists_sources_printOneLine hindent hr hopen
  obtain ⟨w, ws, hscan, -, -⟩ := exists_scan_setOff hne hhead [' ']
  rw [hscan] at hsources hparse ⊢
  cases hsources with
  | @cons _ source _ _ hsource hnil =>
    cases hnil
    refine ⟨source, hsource, fun c => ?_⟩
    rw [hparse, Line.readAll_eq_ok_iff]
    apply and_congr_right
    intro _
    -- one line is read from one source
    constructor
    · rintro ⟨hlines, hindent, hone⟩
      obtain ⟨lines, indent', oneLine⟩ := c
      cases hlines with
      | @cons _ l _ _ hl hnil =>
        cases hnil
        exact ⟨l, Line.read_eq_ok_iff.mp hl, by rw [← hindent, ← hone]⟩
    · rintro ⟨l, hl, rfl⟩
      exact ⟨.cons (Line.read_eq_ok_iff.mpr hl) .nil, rfl, rfl⟩

/-- A comment with one row. -/
theorem readBack_of_body {s : Text} {c : Comment} (h : parse s = .ok c) (hplain : Plain s)
    (hrun : ∀ l ∈ c.lines, l.runsOn = false) {r : Text} (hbody : c.body = [r]) (hne : r ≠ []) :
    ∃ l, c.lines = [l] ∧ ReadBack (scan [] (setOff r ++ [' '])) l := by
  have hback := readBack_body h hplain hrun (b := [' ']) (e := [' ']) (by decide) (by decide)
  have hsetOff : [' '] ++ (r ++ [' ']) = setOff r ++ [' '] := by simp [setOff, hne]
  rw [hbody] at hback
  -- there are as many lines as rows
  cases hlines : c.lines with
  | nil =>
    rw [hlines] at hback
    cases hback
  | cons l lines =>
    rw [hlines] at hback
    cases hback with
    | cons hback hnil =>
      cases hnil
      rw [hsetOff] at hback
      exact ⟨l, rfl, hback⟩

/-- A comment whose only row fits on one line reads back from it. -/
theorem parse_printOneLine {s : Text} {c : Comment} (h : parse s = .ok c) (hplain : Plain s)
    (hrun : ∀ l ∈ c.lines, l.runsOn = false) (hone : c.oneLine = true) {r : Text}
    (hbody : c.body = [r]) (hne : r ≠ []) (hfits : FitsOneLine r) :
    parse (printOneLine c.indent r) = .ok c := by
  have hr : r ∈ c.body := by simp [hbody]
  have hhead := head_of_mem_body h hr
  obtain ⟨l, hlines, hback⟩ := readBack_of_body h hplain hrun hbody hne
  obtain ⟨source, hsource, hparse⟩ := exists_source_printOneLine (blanks_indent h)
    (not_mem_newline_body h r hr) hne hhead hfits.closed
  rw [hparse]
  refine ⟨hback.1, l, ?_, ?_⟩
  · rw [dropMarker_of_scan hne hhead hfits.unmarked hsource]
    exact hback.2 _ hsource
  · rw [← hlines, ← hone]

/-- A string that is left open goes on over the closing delimiter. -/
theorem forms_append_closing {k : Kind} {t : Text} (hforms : Token.Forms k t)
    (hopen : Token.leavesOpen t = true) : k = .other ∧ Token.Forms .other (t ++ "*/".toList) := by
  obtain ⟨c, p, rfl⟩ := List.exists_cons_of_ne_nil (Token.forms_ne_nil hforms)
  obtain rfl := Token.eq_quote_of_leavesOpen hopen
  constructor
  · -- an open quote is other text
    have hmunch := Token.munch_append_of_open hopen []
    rw [List.append_nil, show Token.munch '\'' p = (k, p.length) from hforms] at hmunch
    exact congrArg Prod.fst hmunch
  · have hmunch := Token.munch_append_of_open hopen "*/".toList
    have hclosing : Token.munchString "*/".toList = (.other, 2) := by decide
    rw [hclosing] at hmunch
    rw [List.cons_append, Token.Forms, hmunch, List.length_append]
    rfl

/-- The words of a text that leaves a string open, before a closing delimiter. -/
theorem scan_append_closing {x : Text} {init : List Word} {w : Word} (hx : scan [] x = init ++ [w])
    (hopen : Token.leavesOpen w.text = true) :
    scan [] (x ++ "*/".toList) = init ++ [⟨.other, w.text ++ "*/".toList, w.gap⟩] := by
  obtain ⟨tail, htext, hstands, htail⟩ := Word.exists_scan x
  rw [hx] at htext hstands
  obtain ⟨hinit, hlast⟩ := Word.stands_append.mp hstands
  obtain ⟨hkind, hforms⟩ := forms_append_closing hlast.1.forms hopen
  -- an open string has taken in the blanks at the end
  have hnil : tail = [] := by
    cases tail with
    | nil => rfl
    | cons d tail =>
      have hgo := hlast.2.1 d rfl
      have hd : d ≠ '\n' := by
        rintro rfl
        cases htail '\n' List.mem_cons_self
      rw [hkind] at hgo
      simp [Token.goesOn, hd, hopen] at hgo
  have hne := Token.forms_ne_nil hlast.1.forms
  have hstands' : Stands (init ++ [⟨.other, w.text ++ "*/".toList, w.gap⟩]) none := by
    refine Word.stands_append.mpr ⟨?_, ⟨hforms, Kind.noConfusion, hlast.1.blank⟩, by simp, trivial⟩
    simpa [hnil, List.head?_append, List.head?_append_of_ne_nil _ hne] using hinit
  have hsource : x ++ "*/".toList =
      source (init ++ [⟨.other, w.text ++ "*/".toList, w.gap⟩]) ++ [] := by
    rw [htext, hnil]
    simp
  rw [hsource, Word.scan_eq hstands' (by simp)]

/-- A string that is left open takes in the closing delimiter. -/
theorem not_parse_printOneLine_of_staysOpen {indent r : Text} (hindent : Blanks indent)
    (hno : ∀ w ∈ scan [] (setOff r ++ [' ']), w.kind ≠ .closeDoc) (hopen : StaysOpen r)
    (c : Comment) : parse (printOneLine indent r) ≠ .ok c := by
  obtain ⟨w, hw, hleaves⟩ := hopen
  -- the last word of the row takes in the delimiter
  obtain ⟨init, hinit⟩ := List.getLast?_eq_some_iff.mp hw
  have hforms : Token.Forms .openDoc "/**".toList := rfl
  obtain ⟨gap, hbreak⟩ := Word.scan_append_newline (setOff r ++ [' '] ++ "*/".toList) []
  have hscan := Word.scan_word hforms (by decide) hindent
    fun (d : Char) (_ : d ∈ (setOff r ++ [' '] ++ "*/".toList ++ '\n' :: []).head?) => rfl
  rw [hbreak, scan_append_closing hinit hleaves, Word.scan_nil] at hscan
  intro h
  obtain ⟨lead, opening, inside, closing, trail, hs, -, -, -, hclosing, -⟩ := parse_eq_ok_iff.mp h
  have hmem : closing.word ∈ scan [] (printOneLine indent r) := by
    rw [← Word.words_ofText, hs]
    simp
  rw [show printOneLine indent r = indent ++ ("/**".toList ++
    (setOff r ++ [' '] ++ "*/".toList ++ '\n' :: [])) by simp [printOneLine], hscan] at hmem
  rw [hinit] at hno
  -- the words are the opening, those of the row with the delimiter in the last, and a line break
  simp only [List.mem_cons, List.mem_append, List.not_mem_nil, or_false] at hmem
  rcases hmem with heq | (hmem | heq) | heq
  · cases (congrArg Word.kind heq).symm.trans hclosing
  · exact hno _ (List.mem_append_left _ hmem) hclosing
  · cases (congrArg Word.kind heq).symm.trans hclosing
  · cases (congrArg Word.kind heq).symm.trans hclosing

theorem setOff_injective : Function.Injective setOff := by
  intro r r' h
  unfold setOff at h
  cases r <;> cases r' <;> simp_all

theorem printOneLine_injective {indent : Text} : Function.Injective (printOneLine indent) := by
  intro r r' h
  unfold printOneLine at h
  exact setOff_injective (List.append_cancel_left (List.append_cancel_right h))

/-- A token that begins with a star is an asterisk or the closing delimiter. -/
theorem kind_of_star {k : Kind} {t : Text} (h : Token.Forms k t) (hhead : t.head? = some '*') :
    k = .asterisk ∨ k = .closeDoc := by
  obtain ⟨x, rfl⟩ := List.head?_eq_some_iff.mp hhead
  have hmunch : (if x.head? = some '/' then (Kind.closeDoc, 1) else (.asterisk, 0)) =
      (k, x.length) := h
  split at hmunch
  · exact .inr (congrArg Prod.fst hmunch).symm
  · exact .inl (congrArg Prod.fst hmunch).symm

/-- Nothing is trimmed to itself and another character. -/
theorem ne_trim_of_cons {r x : Text} (tail : Text) (hne : r ≠ [])
    (h : r ++ [' '] = '*' :: (x ++ tail)) : r ≠ Text.trim x := by
  intro hr
  have hlength := congrArg List.length h
  have htrim := (Text.trim_infix x).length_le
  rw [← hr] at htrim
  simp only [List.length_append, List.length_cons, List.length_nil] at hlength
  obtain rfl : tail = [] := List.length_eq_zero_iff.mp (by omega)
  have hx : Text.trim x = x := (Text.trim_infix x).eq_of_length (by rw [← hr]; omega)
  -- so the text ends in the blank
  have hlast : r.getLast? = some ' ' := by
    have := congrArg List.getLast? h
    rw [List.append_nil, ← hx, ← hr] at this
    simpa [List.getLast?_cons, List.getLast?_eq_some_getLast hne] using this.symm
  have hend := (Text.trimmed_trim x).back
  rw [← hr] at hend
  cases hend ' ' hlast

/-- What is taken for a marker is not printed again. -/
theorem print_ne_of_star {indent r : Text} (hindent : Blanks indent) (hr : '\n' ∉ r)
    (hhead : r.head? = some '*') (hopen : ¬StaysOpen r) {c : Comment}
    (h : parse (printOneLine indent r) = .ok c) : print c ≠ printOneLine indent r := by
  have hne : r ≠ [] := by
    rintro rfl
    cases hhead
  have hblank : ∀ d ∈ r.head?, Text.isBlank d = false := by
    rw [hhead]
    rintro _ ⟨⟩
    rfl
  obtain ⟨src, hsrc, hparse⟩ := exists_source_printOneLine hindent hr hne hblank hopen
  obtain ⟨hno, l, hread, rfl⟩ := (hparse c).mp h
  obtain ⟨w, ws, hscan, hfirst, hgap⟩ := exists_scan_setOff hne hblank [' ']
  obtain ⟨tail, htext, hstands, -⟩ := Word.exists_scan (setOff r ++ [' '])
  rw [hscan] at hsrc hno htext hstands
  obtain ⟨u, us, hwords, hu, hus⟩ := words_eq_cons.mp hsrc
  -- the row without its first character is what is read
  -- a star, since a closing delimiter cannot stand in the row
  have hkind : w.kind = .asterisk :=
    (kind_of_star hstands.1.forms (hfirst.trans hhead)).resolve_right (hno w List.mem_cons_self)
  have htext' : w.text = ['*'] := by
    refine Token.eq_of_forms_symbol (k := .asterisk) ?_ rfl
    rw [← hkind]
    exact hstands.1.forms
  rw [hwords, Line.dropMarker, if_pos (by rw [← hkind, ← hu]; rfl)] at hread
  intro hprint
  have hbody := printsAs_body ⟨[l], indent, true⟩
  cases hrows : body ⟨[l], indent, true⟩ with
  | nil =>
    rw [hrows] at hbody
    cases hbody
  | cons r' rows =>
    rw [hrows] at hbody
    cases hbody with
    | cons hrow hnil =>
      cases hnil
      rw [print, hrows] at hprint
      obtain rfl : r' = r := printOneLine_injective hprint
      cases hread with
      -- a tag is printed with its sign, and the row begins with a star
      | tag ht hread =>
        rw [Tag.head?_of_printsAs hrow] at hhead
        cases hhead
      -- free text lost its first character, and is printed shorter
      | text =>
        obtain ⟨laid, hlaid, hr'⟩ := hrow
        cases hlaid
        have hback := Text.endsOff_isBlank (Text.trimmed_trim (Lexeme.source us)).back
        rw [show Text.trimLine ([] ++ (Line.text (restOfLine us)).row.tail) =
          Text.trim (Lexeme.source us) from Text.trimLine_eq_self hback, ← Word.source_words, hus]
          at hr'
        rw [setOff, Word.source_cons, hgap, htext'] at htext
        refine ne_trim_of_cons tail hne ?_ hr'
        simpa [hne] using htext

/-! ## Section 3: Both layouts -/

theorem fitsOneLine_nil : FitsOneLine [] :=
  ⟨not_staysOpen_nil, by simp⟩

/-- A row on one line is printed the same just if it fits there. -/
theorem exists_parse_printOneLine_iff {s : Text} {c : Comment} (h : parse s = .ok c)
    (hplain : Plain s) (hrun : ∀ l ∈ c.lines, l.runsOn = false) (hone : c.oneLine = true) {r : Text}
    (hbody : c.body = [r]) (hne : r ≠ []) :
    (∃ c', parse (printOneLine c.indent r) = .ok c' ∧ print c' = printOneLine c.indent r) ↔
      FitsOneLine r := by
  have hr : '\n' ∉ r := not_mem_newline_body h r (by simp [hbody])
  constructor
  · -- if it reads back and prints the same, nothing stays open and no star comes first
    rintro ⟨c', hparse, hprint⟩
    obtain ⟨l, -, hback⟩ := readBack_of_body h hplain hrun hbody hne
    have hclosed : ¬StaysOpen r := fun hopen =>
      not_parse_printOneLine_of_staysOpen (blanks_indent h) hback.1 hopen c' hparse
    refine ⟨hclosed, fun hstar => ?_⟩
    exact print_ne_of_star (blanks_indent h) hr hstar hclosed hparse hprint
  · intro hfits
    refine ⟨c, parse_printOneLine h hplain hrun hone hbody hne hfits, ?_⟩
    rw [print, hone, hbody]

/-- The other layouts are always printed the same. -/
theorem exists_parse_print_of_lines {s : Text} {c : Comment} (h : parse s = .ok c)
    (hplain : Plain s) (hrun : ∀ l ∈ c.lines, l.runsOn = false)
    (hrow : c.oneLine = true → ∀ r, c.body = [r] → r = []) :
    ∃ c', parse (print c) = .ok c' ∧ print c' = print c := by
  rw [print]
  split
  · exact ⟨_, parse_printOneLine_nil (blanks_indent h), rfl⟩
  · next r hone hbody =>
    rw [hrow hone r hbody]
    exact ⟨_, parse_printOneLine_nil (blanks_indent h), rfl⟩
  · exact ⟨_, parse_printLines_of_not_runsOn h hplain hrun, rfl⟩

/-- A comment of plain text in which no tag runs on is printed the same once it has been printed,
unless it is laid out on one line and its row does not fit there. -/
theorem exists_parse_print_iff {s : Text} {c : Comment} (h : parse s = .ok c)
    (hspace : ∀ x ∈ s, Text.isSpace x = true → x = ' ' ∨ x = '\t' ∨ x = '\n')
    (hrun : ∀ l ∈ c.lines, l.runsOn = false) :
    (∃ c', parse (print c) = .ok c' ∧ print c' = print c) ↔
      (c.oneLine = true → ∀ r, c.body = [r] → FitsOneLine r) := by
  -- either the rows stand on lines of their own, or one row stands on one line
  by_cases hrow : c.oneLine = true → ∀ r, c.body = [r] → r = []
  · refine iff_of_true (exists_parse_print_of_lines h hspace hrun hrow) fun hone r hbody => ?_
    rw [hrow hone r hbody]
    exact fitsOneLine_nil
  · push Not at hrow
    obtain ⟨hone, r, hbody, hne⟩ := hrow
    have hprint : print c = printOneLine c.indent r := by rw [print, hone, hbody]
    rw [hprint, exists_parse_printOneLine_iff h hspace hrun hone hbody hne, hbody]
    simp [hone]

/-- A text that begins with what is taken for a marker of the line. -/
theorem not_exists_parse_print_star :
    ∃ c, parse "/** ***/".toList = .ok c ∧
      ¬∃ c', parse (print c) = .ok c' ∧ print c' = print c := by
  have h : parse "/** ***/".toList = .ok ⟨[.text ['*']], [], true⟩ := by
    cbv
  have hprint : print ⟨[.text ['*']], [], true⟩ = "/** * */\n".toList := by
    cbv
  -- the star is taken for a marker
  have hagain : parse "/** * */\n".toList = .ok ⟨[.text []], [], true⟩ := by
    cbv
  have hprint' : print ⟨[.text []], [], true⟩ = "/** */\n".toList := by
    cbv
  refine ⟨_, h, ?_⟩
  rw [hprint]
  rintro ⟨c', hparse, hsame⟩
  rw [hagain] at hparse
  cases hparse
  rw [hprint'] at hsame
  simp at hsame

/-- A tag on one line. -/
theorem exists_parse_print_tag : ∃ c, parse "/** @var  A  it\n*/".toList = .ok c ∧
    ∃ c', parse (print c) = .ok c' ∧ print c' = print c := by
  have hts : Lexeme.ofText "/** @var  A  it\n*/".toList =
      [⟨⟨.openDoc, "/**".toList, ⟨1, 1⟩⟩, []⟩, ⟨⟨.tag, "@var".toList, ⟨1, 5⟩⟩, [' ']⟩,
       ⟨⟨.ident, ['A'], ⟨1, 11⟩⟩, "  ".toList⟩, ⟨⟨.ident, "it".toList, ⟨1, 14⟩⟩, "  ".toList⟩,
       ⟨⟨.newline, ['\n'], ⟨1, 16⟩⟩, []⟩, ⟨⟨.closeDoc, "*/".toList, ⟨2, 1⟩⟩, []⟩] := by
    cbv
  have h : parse "/** @var  A  it\n*/".toList =
      .ok ⟨[.tag (.var (.named (.single ['A'])) none "it".toList)], [], true⟩ := by
    rw [parse, hts]
    rfl
  have hbody : body ⟨[.tag (.var (.named (.single ['A'])) none "it".toList)], [], true⟩ =
      ["@var A it".toList] := rfl
  have hscan : scan [] (setOff "@var A it".toList ++ [' ']) =
      [⟨.tag, "@var".toList, [' ']⟩, ⟨.ident, ['A'], [' ']⟩, ⟨.ident, "it".toList, [' ']⟩] := by
    cbv
  have hfits : FitsOneLine "@var A it".toList := by
    refine ⟨?_, by decide⟩
    rintro ⟨w, hw, hopen⟩
    rw [hscan] at hw
    cases hw
    cases hopen
  refine ⟨_, h, (exists_parse_print_iff h (show Plain _ by decide) ?_).mpr ?_⟩
  · rw [List.forall_mem_singleton]
    rfl
  · rw [hbody]
    rintro - r ⟨⟩
    exact hfits

end Comment

end Docblock
