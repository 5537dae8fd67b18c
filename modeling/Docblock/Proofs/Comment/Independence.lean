import Docblock.Proofs.Comment.Refusal
import Docblock.Proofs.Lexeme.Attach
import Docblock.Proofs.SideBySide

/-!
# Lines are read on their own

No token reaches over a line break, and so nothing that is read on one line bears upon the next:
an open quote, a type that breaks off or a name with a word glued to it ends with its line.  A
comment is read as the comments that have one of its lines each.

## Contents

1. `tokensFrom_append_newline`: the tokens on both sides of a line break.
2. `SourceLine.ofText`: the line of a text at a position; `read_ofText_down`.
3. `Comment.ofLines`: the comment that has some lines; `parse_ofLines`.
4. `parse_ofLines_independent`: a comment and its lines.
-/

namespace Docblock

/-! ## Section 1: Tokens on one line -/

namespace Token

variable {p : Position} {s : Text} {t : Token}

/-- A line break ends the token before it, whatever that is. -/
theorem tokensFrom_append_newline (p : Position) (s rest : Text) :
    tokensFrom p (s ++ '\n' :: rest) = tokensFrom p s ++
      ⟨.newline, ['\n'], p.advance s⟩ :: tokensFrom ((p.advance s).step '\n') rest := by
  -- no token goes on over a line break
  have hlast : ∀ t ∈ (tokensFrom p s).getLast?, ∀ d ∈ ('\n' :: rest).head?,
      goesOn t.kind t.text d = false := by
    intro t _ d hd
    obtain rfl := Option.some.inj hd
    exact goesOn_newline t.kind t.text
  have hbreak : tokensFrom (p.advance s) (['\n'] ++ rest) = _ :=
    tokensFrom_append (k := .newline) (by decide) (by simp [goesOn]) _
  rw [tokensFrom_append_of_last p hlast]
  exact congrArg _ hbreak

theorem infix_of_mem_tokensFrom (ht : t ∈ tokensFrom p s) : t.text <:+: s := by
  obtain ⟨pre, post, hsplit⟩ := List.append_of_mem ht
  have hcover := flatMap_text_tokensFrom p s
  rw [hsplit, List.flatMap_append, List.flatMap_cons] at hcover
  exact ⟨pre.flatMap (·.text), post.flatMap (·.text), by rw [List.append_assoc, hcover]⟩

/-- A text without a line break has no token that is one. -/
theorem kind_ne_newline_of_mem (hs : '\n' ∉ s) (ht : t ∈ tokensFrom p s) : t.kind ≠ .newline := by
  intro hk
  have hforms := forms_of_mem_tokensFrom ht
  have hpart := infix_of_mem_tokensFrom ht
  rw [hk] at hforms
  generalize t.text = x at hforms hpart
  -- a token of this kind can only be the line break itself
  cases shape_of_forms hforms with
  | symbol h => cases h
  | newline => exact hs (hpart.subset List.mem_cons_self)

/-- A text without the closing delimiter has no token that is one. -/
theorem kind_ne_closeDoc_of_mem (hs : ¬"*/".toList <:+: s) (ht : t ∈ tokensFrom p s) :
    t.kind ≠ .closeDoc := by
  intro hk
  have hforms := forms_of_mem_tokensFrom ht
  rw [hk] at hforms
  apply hs
  rw [← eq_of_forms_symbol hforms rfl]
  exact infix_of_mem_tokensFrom ht

end Token

/-! ## Section 2: Lines at their positions -/

/-- A line that begins at a position and is ended by a line break. -/
def SourceLine.ofText (p : Position) (l : Text) : SourceLine :=
  ⟨Lexeme.attachFrom [] (Token.tokensFrom p l), ⟨.newline, ['\n'], p.advance l⟩⟩

theorem SourceLine.ofText_down (n : Nat) (p : Position) (l : Text) :
    ofText (p.down n) l = (ofText p l).moved fun t => t.pos.down n := by
  unfold ofText moved
  rw [Token.tokensFrom_down, Position.advance_down, ← Lexeme.attachFrom_moved]
  rfl

/-- A line further down is read alike, and refused at the same column with the same message. -/
theorem Line.read_ofText_down (n : Nat) (p : Position) (l : Text) :
    read (.ofText (p.down n) l) =
      (read (.ofText p l)).mapError fun e => ⟨e.pos.down n, e.message⟩ := by
  rw [SourceLine.ofText_down]
  cases hread : read (SourceLine.ofText p l) with
  | ok line => exact read_moved_of_ok hread _
  -- the error names a token, which has moved down with the line
  | error e =>
    obtain ⟨t, rest, fault, hwords, ht, hfault, rfl⟩ := read_eq_error_iff.mp hread
    rw [read_moved_of_error hwords ht hfault]
    rfl

namespace Comment

/-! ## Section 3: Comments with some lines -/

/-- The comment that has some lines, with its delimiters on lines of their own. -/
def ofLines (ls : List Text) : Text :=
  "/**\n".toList ++ ls.flatMap (· ++ ['\n']) ++ "*/".toList

/-- A text that can stand on one line of a comment. -/
def OneLine (l : Text) : Prop :=
  '\n' ∉ l ∧ ¬"*/".toList <:+: l

/-- Some lines, the first of which is line `n` of a text. -/
def linesFrom (n : Nat) (ls : List Text) : List SourceLine :=
  ls.mapIdx fun i l => .ofText ⟨n + i, 1⟩ l

/-- The first line stands at the first number, the others follow it. -/
theorem linesFrom_cons (n : Nat) (l : Text) (ls : List Text) :
    linesFrom n (l :: ls) = .ofText ⟨n, 1⟩ l :: linesFrom (n + 1) ls := by
  have hnext : (fun i (l : Text) => SourceLine.ofText ⟨n + (i + 1), 1⟩ l) =
      fun i l => .ofText ⟨n + 1 + i, 1⟩ l := by
    funext i l
    rw [Nat.add_comm i 1, Nat.add_assoc]
  rw [linesFrom, List.mapIdx_cons, hnext]
  rfl

/-- Lines behind other lines are numbered from there. -/
theorem linesFrom_append (n : Nat) (xs ys : List Text) :
    linesFrom n (xs ++ ys) = linesFrom n xs ++ linesFrom (n + xs.length) ys := by
  induction xs generalizing n with
  | nil => rfl
  | cons l xs ih =>
    have hlength : n + (l :: xs).length = n + 1 + xs.length := by
      rw [List.length_cons]
      omega
    rw [List.cons_append, linesFrom_cons, linesFrom_cons, ih, hlength, List.cons_append]

/-- The words of one line are neither line breaks nor closing delimiters. -/
theorem kinds_of_oneLine {l : Text} (hl : OneLine l) (p : Position) :
    ∀ t ∈ (SourceLine.ofText p l).words, t.kind ≠ .newline ∧ t.kind ≠ .closeDoc := by
  intro t ht
  -- every lexeme of the line is one of its tokens
  have hmem : t.toToken ∈ Token.tokensFrom p l := by
    have hsolid := List.mem_map_of_mem (f := (·.toToken)) ht
    rw [SourceLine.ofText, Lexeme.map_toToken_attachFrom, Token.solid] at hsolid
    exact List.mem_of_mem_filter hsolid
  exact ⟨Token.kind_ne_newline_of_mem hl.1 hmem, Token.kind_ne_closeDoc_of_mem hl.2 hmem⟩

/-- The lexemes of some lines: none of them closes a comment, and cutting them at the line breaks
gives the lines back. -/
theorem exists_lexemes (ls : List Text) (hls : ∀ l ∈ ls, OneLine l) (n : Nat) (rest : Text) :
    ∃ ts, Lexeme.attachFrom [] (Token.tokensFrom ⟨n, 1⟩ (ls.flatMap (· ++ ['\n']) ++ rest)) =
        ts ++ Lexeme.attachFrom [] (Token.tokensFrom ⟨n + ls.length, 1⟩ rest) ∧
      (∀ t ∈ ts, t.kind ≠ .closeDoc) ∧
      ∀ stop, ((SourceLine.split stop ts).1 :: (SourceLine.split stop ts).2) =
        linesFrom n ls ++ [⟨[], stop⟩] := by
  induction ls generalizing n with
  | nil =>
    -- behind the last line break there is one more line, with nothing on it
    exact ⟨[], rfl, by simp, fun stop => rfl⟩
  | cons l ls ih =>
    obtain ⟨hl, hls⟩ := List.forall_mem_cons.mp hls
    obtain ⟨ts, hts, hkinds, hsplit⟩ := ih hls (n + 1)
    have hwords := kinds_of_oneLine hl ⟨n, 1⟩
    -- the blanks at the end of the line go to its line break, so none reach the next line
    obtain ⟨gap, hgap⟩ := Lexeme.exists_attachFrom_append
      (t := ⟨.newline, ['\n'], (⟨n, 1⟩ : Position).advance l⟩) (by simp) []
      (Token.tokensFrom ⟨n, 1⟩ l)
      (Token.tokensFrom ⟨n + 1, 1⟩ (ls.flatMap (· ++ ['\n']) ++ rest))
    refine ⟨(SourceLine.ofText ⟨n, 1⟩ l).words ++
      ⟨(SourceLine.ofText ⟨n, 1⟩ l).stop, gap⟩ :: ts, ?_, ?_, ?_⟩
    · have htext : (l :: ls).flatMap (· ++ ['\n']) ++ rest =
          l ++ '\n' :: (ls.flatMap (· ++ ['\n']) ++ rest) := by
        simp
      have hlength : n + (l :: ls).length = n + 1 + ls.length := by
        rw [List.length_cons]
        omega
      rw [htext, Token.tokensFrom_append_newline, Position.step_advance hl.1, hgap, hts,
        hlength, List.append_assoc, List.cons_append]
      rfl
    · intro t ht
      rcases List.mem_append.mp ht with ht | ht
      · exact (hwords t ht).2
      · rcases List.mem_cons.mp ht with rfl | ht
        · exact Kind.noConfusion
        · exact hkinds t ht
    · -- the first line is cut at its break
      intro stop
      rw [SourceLine.split_append_newline (fun t ht => (hwords t ht).1) rfl, hsplit, linesFrom_cons]
      rfl

/-- Behind an opening line with nothing on it, the lines are those that follow, without the empty
one at the end. -/
theorem content_newline {stop : Token} {opening : Lexeme} (hopening : opening.kind = .newline)
    {ts : List Lexeme} {lines : List SourceLine}
    (hsplit : (SourceLine.split stop ts).1 :: (SourceLine.split stop ts).2 =
      lines ++ [⟨[], stop⟩]) :
    SourceLine.content stop (opening :: ts) = (false, lines) := by
  have hfirst : SourceLine.split stop ([] ++ opening :: ts) =
      (⟨[], opening.toToken⟩, (SourceLine.split stop ts).1 :: (SourceLine.split stop ts).2) :=
    SourceLine.split_append_newline (by simp) hopening
  rw [List.nil_append] at hfirst
  unfold SourceLine.content
  rw [hfirst]
  simp only [hsplit]
  -- the empty line before the closing delimiter does not count
  cases lines with
  | nil => rfl
  -- and an empty line behind others is dropped
  | cons l lines => rw [SourceLine.dropBlankEnd_append (List.cons_ne_nil l lines) _ rfl]

/-- The lexemes of a comment with some lines: its delimiters, and the lexemes `ts` of the lines. -/
theorem ofText_ofLines {ls : List Text} {ts : List Lexeme}
    (hts : Lexeme.attachFrom [] (Token.tokensFrom ⟨2, 1⟩ (ls.flatMap (· ++ ['\n']) ++ "*/".toList)) =
      ts ++ Lexeme.attachFrom [] (Token.tokensFrom ⟨2 + ls.length, 1⟩ "*/".toList)) :
    Lexeme.ofText (ofLines ls) = ⟨⟨.openDoc, "/**".toList, .start⟩, []⟩ ::
      (⟨⟨.newline, ['\n'], ⟨1, 4⟩⟩, []⟩ :: ts ++
        [⟨⟨.closeDoc, "*/".toList, ⟨2 + ls.length, 1⟩⟩, []⟩]) := by
  have htext : ofLines ls =
      "/**".toList ++ ([] ++ '\n' :: (ls.flatMap (· ++ ['\n']) ++ "*/".toList)) :=
    List.append_assoc "/**\n".toList _ _
  -- the closing delimiter is the only token behind the last line
  have hclosing : Token.tokensFrom ⟨2 + ls.length, 1⟩ "*/".toList =
      [⟨.closeDoc, "*/".toList, ⟨2 + ls.length, 1⟩⟩] := by
    have hlast := Token.tokensFrom_append (k := .closeDoc) (t := "*/".toList) (s := []) (by decide)
      (by simp) ⟨2 + ls.length, 1⟩
    rwa [List.append_nil, Token.tokensFrom_nil] at hlast
  rw [hclosing] at hts
  rw [htext, ofText_opening, Token.tokensFrom_append_newline, Token.tokensFrom_nil]
  exact congrArg (fun us => _ :: _ :: us) hts

/-- A comment whose delimiters stand on lines of their own is its lines. -/
theorem parse_ofLines {ls : List Text} (hls : ∀ l ∈ ls, OneLine l) :
    parse (ofLines ls) = (Line.readAll (linesFrom 2 ls)).map fun lines => ⟨lines, [], false⟩ := by
  obtain ⟨ts, hts, hkinds, hsplit⟩ := exists_lexemes ls hls 2 "*/".toList
  rw [parse_of_parts (ofText_ofLines hts) rfl rfl (by simpa using hkinds), content_newline rfl (hsplit _)]
  rfl

/-! ## Section 4: A comment and its lines -/

/-- A comment with one line is that line. -/
theorem parse_singleton {l : Text} (hl : OneLine l) :
    parse (ofLines [l]) = (Line.read (.ofText ⟨2, 1⟩ l)).map fun line => ⟨[line], [], false⟩ := by
  rw [parse_ofLines (List.forall_mem_singleton.mpr hl), linesFrom_cons, Line.readAll]
  cases Line.read (SourceLine.ofText ⟨2, 1⟩ l) <;> rfl

theorem parse_singleton_eq_ok_iff {l : Text} (hl : OneLine l) {c : Comment} :
    parse (ofLines [l]) = .ok c ↔
      ∃ line, Line.read (.ofText ⟨2, 1⟩ l) = .ok line ∧ c = ⟨[line], [], false⟩ := by
  rw [parse_singleton hl]
  cases Line.read (SourceLine.ofText ⟨2, 1⟩ l) <;> simp [Except.map, eq_comm]

theorem forall_parse_singleton_iff {ls : List Text} (hls : ∀ l ∈ ls, OneLine l) :
    (∀ l ∈ ls, ∃ c, parse (ofLines [l]) = .ok c) ↔
      ∀ l ∈ ls, ∃ line, Line.read (.ofText ⟨2, 1⟩ l) = .ok line := by
  refine forall₂_congr fun l hl => ?_
  rw [parse_singleton (hls l hl)]
  cases Line.read (SourceLine.ofText ⟨2, 1⟩ l) <;> simp [Except.map]

theorem parse_singleton_eq_error_iff {l : Text} (hl : OneLine l) {e : SyntaxError} :
    parse (ofLines [l]) = .error e ↔ Line.read (.ofText ⟨2, 1⟩ l) = .error e := by
  rw [parse_singleton hl]
  cases Line.read (SourceLine.ofText ⟨2, 1⟩ l) <;> simp [Except.map]

theorem read_ofText_add (n : Nat) (l : Text) :
    Line.read (.ofText ⟨2 + n, 1⟩ l) =
      (Line.read (.ofText ⟨2, 1⟩ l)).mapError fun e => ⟨e.pos.down n, e.message⟩ :=
  Line.read_ofText_down n ⟨2, 1⟩ l

/-- Lines are read alike wherever they stand. -/
theorem readAll_linesFrom_eq_ok_iff (n : Nat) {ls : List Text} {lines : List Line} :
    Line.readAll (linesFrom (2 + n) ls) = .ok lines ↔
      List.Forall₂ (fun l line => Line.read (.ofText ⟨2, 1⟩ l) = .ok line) ls lines := by
  rw [Line.readAll_eq_ok_iff]
  -- induction on the lines; the place of the first moves down by one
  induction ls generalizing n lines with
  | nil => simp [linesFrom]
  | cons l ls ih =>
    -- reading further down changes positions of errors only
    have hread (line : Line) : Line.read (.ofText ⟨2 + n, 1⟩ l) = .ok line ↔
        Line.read (.ofText ⟨2, 1⟩ l) = .ok line := by
      rw [read_ofText_add]
      cases Line.read (SourceLine.ofText ⟨2, 1⟩ l) <;> simp [Except.mapError]
    rw [linesFrom_cons]
    cases lines with
    | nil => simp
    | cons line lines => rw [List.forall₂_cons, List.forall₂_cons, hread, Nat.add_assoc, ih]

/-- The error of some lines is that of the first one that is refused by itself. -/
theorem readAll_linesFrom_eq_error_iff {ls : List Text} {e : SyntaxError} :
    Line.readAll (linesFrom 2 ls) = .error e ↔ ∃ pre l post e', ls = pre ++ l :: post ∧
      (∀ x ∈ pre, ∃ line, Line.read (.ofText ⟨2, 1⟩ x) = .ok line) ∧
      Line.read (.ofText ⟨2, 1⟩ l) = .error e' ∧ e = ⟨e'.pos.down pre.length, e'.message⟩ := by
  rw [Line.readAll_eq_error_iff]
  constructor
  · rintro ⟨before, line, after, hsplit, ⟨lines, hbefore⟩, hline⟩
    -- a cut of the lines in their places is a cut of their texts
    obtain ⟨pre, rest, rfl, rfl, hrest⟩ := List.mapIdx_eq_append_iff.mp hsplit
    obtain ⟨l, post, rfl, rfl, -⟩ := List.mapIdx_eq_cons_iff.mp hrest
    have hpre := exists_forall₂_iff.mp ⟨lines, (readAll_linesFrom_eq_ok_iff 0).mp hbefore⟩
    rw [Nat.zero_add, read_ofText_add] at hline
    cases hread : Line.read (.ofText ⟨2, 1⟩ l) with
    | ok line =>
      rw [hread] at hline
      cases hline
    | error e' =>
      rw [hread] at hline
      exact ⟨pre, l, post, e', rfl, hpre, hread, (Except.error.inj hline).symm⟩
  · rintro ⟨pre, l, post, e', rfl, hpre, hread, rfl⟩
    obtain ⟨lines, hlines⟩ := exists_forall₂_iff.mpr hpre
    refine ⟨linesFrom 2 pre, .ofText ⟨2 + pre.length, 1⟩ l, linesFrom (2 + pre.length + 1) post, ?_,
      ⟨lines, (readAll_linesFrom_eq_ok_iff 0).mpr hlines⟩, ?_⟩
    · rw [linesFrom_append, linesFrom_cons]
    · rw [read_ofText_add, hread]
      rfl

theorem parse_ofLines_eq_ok_iff {ls : List Text} (hls : ∀ l ∈ ls, OneLine l) {c : Comment} :
    parse (ofLines ls) = .ok c ↔ ∃ lines,
      List.Forall₂ (fun l line => Line.read (.ofText ⟨2, 1⟩ l) = .ok line) ls lines ∧
        c = ⟨lines, [], false⟩ := by
  simp only [← readAll_linesFrom_eq_ok_iff 0, parse_ofLines hls]
  cases Line.readAll (linesFrom 2 ls) <;> simp [Except.map, eq_comm]

theorem parse_ofLines_eq_error_iff {ls : List Text} (hls : ∀ l ∈ ls, OneLine l) {e : SyntaxError} :
    parse (ofLines ls) = .error e ↔ Line.readAll (linesFrom 2 ls) = .error e := by
  rw [parse_ofLines hls]
  cases Line.readAll (linesFrom 2 ls) <;> simp [Except.map]

/-- A comment is read if and only if each of its lines is read by itself, and its lines are theirs.
Otherwise it is refused where the first of them is refused that is, with the same message and in the
same column, as many lines further down as there are lines before it. -/
theorem parse_ofLines_independent (ls : List Text)
    (hls : ∀ l ∈ ls, '\n' ∉ l ∧ ¬"*/".toList <:+: l) :
    ((∃ c, parse (ofLines ls) = .ok c) ↔ ∀ l ∈ ls, ∃ c, parse (ofLines [l]) = .ok c) ∧
      (∀ c, parse (ofLines ls) = .ok c →
        List.Forall₂ (fun l line => ∃ c', parse (ofLines [l]) = .ok c' ∧ c'.lines = [line])
          ls c.lines) ∧
      ∀ e, parse (ofLines ls) = .error e ↔ ∃ pre l post e', ls = pre ++ l :: post ∧
        (∀ x ∈ pre, ∃ c, parse (ofLines [x]) = .ok c) ∧ parse (ofLines [l]) = .error e' ∧
        e = ⟨⟨e'.pos.line + pre.length, e'.pos.column⟩, e'.message⟩ := by
  -- on both sides, what decides is how the lines are read in the place of the first
  refine ⟨?_, ?_, ?_⟩
  · rw [forall_parse_singleton_iff hls, ← exists_forall₂_iff]
    constructor
    · rintro ⟨c, hc⟩
      obtain ⟨lines, hall, -⟩ := (parse_ofLines_eq_ok_iff hls).mp hc
      exact ⟨lines, hall⟩
    · rintro ⟨lines, hall⟩
      exact ⟨_, (parse_ofLines_eq_ok_iff hls).mpr ⟨lines, hall, rfl⟩⟩
  · -- the lines of the comment are those of the comments with one line
    intro c hc
    obtain ⟨lines, hall, rfl⟩ := (parse_ofLines_eq_ok_iff hls).mp hc
    -- each line is read in the place of the first, where a comment of its own has it
    refine List.Forall₂.imp ?_ ((List.forall₂_and_left _ _).mpr ⟨hls, hall⟩)
    rintro l line ⟨hl, hread⟩
    exact ⟨_, (parse_singleton_eq_ok_iff hl).mpr ⟨line, hread, rfl⟩, rfl⟩
  · intro e
    -- the first line that fails decides the message and the column, its number the line
    rw [parse_ofLines_eq_error_iff hls, readAll_linesFrom_eq_error_iff]
    refine exists₄_congr fun pre l post e' => and_congr_right ?_
    rintro rfl
    obtain ⟨hpre, hpost⟩ := List.forall_mem_append.mp hls
    obtain ⟨hl, -⟩ := List.forall_mem_cons.mp hpost
    rw [forall_parse_singleton_iff hpre, parse_singleton_eq_error_iff hl]
    rfl

/-- A quote that is left open does not reach the tag on the next line, which is refused where its
line breaks off. -/
theorem parse_ofLines_open_quote :
    parse (ofLines ["it's".toList, "* @param int".toList]) =
      .error ⟨⟨3, 13⟩, "expecting Var, found Newline".toList⟩ := by
  have hquote : Lexeme.ofText "/**\nit's\n*/".toList =
      [⟨⟨.openDoc, "/**".toList, ⟨1, 1⟩⟩, []⟩, ⟨⟨.newline, ['\n'], ⟨1, 4⟩⟩, []⟩,
       ⟨⟨.ident, "it".toList, ⟨2, 1⟩⟩, []⟩, ⟨⟨.other, "'s".toList, ⟨2, 3⟩⟩, []⟩,
       ⟨⟨.newline, ['\n'], ⟨2, 5⟩⟩, []⟩, ⟨⟨.closeDoc, "*/".toList, ⟨3, 1⟩⟩, []⟩] := by
    cbv
  have htag : Lexeme.ofText "/**\n* @param int\n*/".toList =
      [⟨⟨.openDoc, "/**".toList, ⟨1, 1⟩⟩, []⟩, ⟨⟨.newline, ['\n'], ⟨1, 4⟩⟩, []⟩,
       ⟨⟨.asterisk, ['*'], ⟨2, 1⟩⟩, []⟩, ⟨⟨.tag, "@param".toList, ⟨2, 3⟩⟩, [' ']⟩,
       ⟨⟨.ident, "int".toList, ⟨2, 10⟩⟩, [' ']⟩, ⟨⟨.newline, ['\n'], ⟨2, 13⟩⟩, []⟩,
       ⟨⟨.closeDoc, "*/".toList, ⟨3, 1⟩⟩, []⟩] := by
    cbv
  have hfirst : ∃ c, parse (ofLines ["it's".toList]) = .ok c := by
    have htext : ofLines ["it's".toList] = "/**\nit's\n*/".toList := rfl
    rw [htext, parse, hquote]
    exact ⟨_, rfl⟩
  have hsecond : parse (ofLines ["* @param int".toList]) =
      .error ⟨⟨2, 13⟩, "expecting Var, found Newline".toList⟩ := by
    have htext : ofLines ["* @param int".toList] = "/**\n* @param int\n*/".toList := rfl
    rw [htext, parse, htag]
    rfl
  refine ((parse_ofLines_independent _ ?_).2.2 _).mpr
    ⟨["it's".toList], "* @param int".toList, [], _, rfl, ?_, hsecond, rfl⟩
  · simp [List.infix_cons_iff]
  · simpa using hfirst

end Comment

end Docblock
