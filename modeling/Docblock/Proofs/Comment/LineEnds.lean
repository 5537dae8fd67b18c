import Docblock.Proofs.Comment.Trailing
import Docblock.Source.Format

/-!
# Line ends

A line break is one character, and a carriage return in front of it is text of the line that ends
there.  The lines of a comment are the same with returns and without, but for two places: the line
of the opening delimiter counts if a return stands on it, and outside the delimiters a return is
refused.

## Contents

1. `Returns`: the words of a text with a return in front of every line break.
2. `Returns.content`: the lines between the delimiters.
3. `Comment.parse_withReturns`: whole comments.
-/

namespace Docblock

open Lexeme (words)
open Text (Blanks)
open Word (source scan Stands)

/-! ## Section 1: All line ends -/

/-- A text with a carriage return in front of every line break. -/
def Text.withReturns (s : Text) : Text :=
  s.flatMap fun c => if c = '\n' then ['\r', '\n'] else [c]

theorem Text.withReturns_of_not_mem {l : Text} (hl : '\n' ∉ l) : withReturns l = l := by
  induction l with
  | nil => rfl
  | cons c l ih =>
    have hc : c ≠ '\n' := fun hc => hl (hc ▸ List.mem_cons_self)
    have hrest : withReturns (c :: l) = c :: withReturns l := by simp [withReturns, hc]
    rw [hrest, ih (List.not_mem_of_not_mem_cons hl)]

theorem Text.withReturns_append (a b : Text) : withReturns (a ++ b) = withReturns a ++ withReturns b :=
  List.flatMap_append

/-- The words `ws`, and the words `vs` with a return at the end of every line but the last.  The
texts of the lines before the last are `ls`. -/
inductive Returns : List Text → List Word → List Word → Prop where
  | last {ws : List Word} (h : ∀ w ∈ ws, w.kind ≠ .newline) : Returns [] ws ws
  | line {l : Text} {ls : List Text} {ws vs : List Word} {n n' : Word} (hl : '\n' ∉ l)
      (hn : n.kind = .newline) (hn' : n'.kind = .newline) (h : Returns ls ws vs) :
      Returns (l :: ls) (scan [] l ++ n :: ws) (scan [] (l ++ ['\r']) ++ n' :: vs)

namespace Returns

variable {ls : List Text} {ws vs : List Word} {k : Word}

/-- The words of a text with returns are the words of the text with a return at the end of each line
but the last. -/
theorem of_scan (s : Text) :
    Returns (s.splitOn '\n').dropLast (scan [] s) (scan [] (Text.withReturns s)) := by
  induction s using Text.linewise with
  | last l hl =>
    rw [List.splitOn_eq_singleton hl, Text.withReturns_of_not_mem hl]
    exact .last (kind_ne_newline_of_scan hl)
  | line l rest hl ih =>
    have hreturns : Text.withReturns (l ++ '\n' :: rest) =
        (l ++ ['\r']) ++ '\n' :: Text.withReturns rest := by
      rw [Text.withReturns_append, Text.withReturns_of_not_mem hl]
      simp [Text.withReturns]
    obtain ⟨gap, hscan⟩ := Word.scan_append_newline l rest
    obtain ⟨gap', hscan'⟩ := Word.scan_append_newline (l ++ ['\r']) (Text.withReturns rest)
    rw [List.splitOn_append_cons_self_of_not_mem hl, hreturns, hscan, hscan',
      List.dropLast_cons_of_ne_nil (List.splitOn_ne_nil _ _)]
    exact .line hl rfl rfl ih

/-- If a word in the middle is not the last one, the last one stands behind it. -/
theorem append_cons_eq_concat {a ws vs : List Word} {n : Word} (h : a ++ n :: ws = vs ++ [k])
    (hne : n ≠ k) : ∃ ws', ws = ws' ++ [k] ∧ vs = a ++ n :: ws' := by
  rcases List.eq_nil_or_concat ws with rfl | ⟨ws', w, rfl⟩
  · obtain ⟨-, hlast⟩ := List.append_inj' h rfl
    exact absurd (List.cons.inj hlast).1 hne
  · rw [List.concat_eq_append, ← List.cons_append, ← List.append_assoc] at h
    obtain ⟨rfl, hlast⟩ := List.append_inj' h rfl
    obtain rfl := (List.cons.inj hlast).1
    exact ⟨ws', by simp, rfl⟩

/-- The last word is the same on both sides. -/
theorem of_concat (hk : k.kind ≠ .newline) {us : List Word} (h : Returns ls (ws ++ [k]) us) :
    ∃ vs, us = vs ++ [k] ∧ Returns ls ws vs := by
  generalize hws : ws ++ [k] = xs at h
  -- induction on the lines; the last word is no line break, so it stands on the last line
  induction h generalizing ws with
  | last hbreak =>
    subst hws
    exact ⟨ws, rfl, .last fun w hw => hbreak w (List.mem_append_left _ hw)⟩
  | @line l ls xs us n n' hl hn hn' _ ih =>
    obtain ⟨xs', rfl, rfl⟩ := append_cons_eq_concat hws.symm (by rintro rfl; exact hk hn)
    obtain ⟨vs, rfl, hvs⟩ := ih rfl
    exact ⟨scan [] (l ++ ['\r']) ++ n' :: vs, by simp, .line hl hn hn' hvs⟩

/-- The same for the words with returns. -/
theorem of_concat_right (hk : k.kind ≠ .newline) {us : List Word} (h : Returns ls us (vs ++ [k])) :
    ∃ ws, us = ws ++ [k] ∧ Returns ls ws vs := by
  generalize hvs : vs ++ [k] = xs at h
  induction h generalizing vs with
  | last hbreak =>
    subst hvs
    exact ⟨vs, rfl, .last fun w hw => hbreak w (List.mem_append_left _ hw)⟩
  | @line l ls us xs n n' hl hn hn' _ ih =>
    obtain ⟨xs', rfl, rfl⟩ := append_cons_eq_concat hvs.symm (by rintro rfl; exact hk hn')
    obtain ⟨ws, rfl, hws⟩ := ih rfl
    exact ⟨scan [] l ++ n :: ws, by simp, .line hl hn hn' hws⟩

/-- No delimiter comes or goes. -/
theorem closeDoc_iff (h : Returns ls ws vs) :
    (∀ w ∈ vs, w.kind ≠ .closeDoc) ↔ ∀ w ∈ ws, w.kind ≠ .closeDoc := by
  induction h with
  | last => rfl
  | @line l ls ws vs n n' _ hn hn' _ ih =>
    have htrail := (Word.trailed_scan l).closeDoc_iff
    simp only [List.forall_mem_append, List.forall_mem_cons, htrail, ih, hn, hn']

/-- The lines that the words are cut into. -/
theorem split {ts us : List Lexeme} (h : Returns ls (words ts) (words us)) (stop stop' : Token) :
    ∃ (xs : List SourceLine) (x : SourceLine) (xs' : List SourceLine) (x' : SourceLine),
      (SourceLine.split stop ts).1 :: (SourceLine.split stop ts).2 = xs ++ [x] ∧
      (SourceLine.split stop' us).1 :: (SourceLine.split stop' us).2 = xs' ++ [x'] ∧
      words x.words = words x'.words ∧
      List.Forall₂ (fun l line => words line.words = scan [] l) ls xs ∧
      List.Forall₂ (fun l line => words line.words = scan [] (l ++ ['\r'])) ls xs' := by
  generalize hws : words ts = ws at h
  generalize hvs : words us = vs at h
  -- induction on the lines of the text
  induction h generalizing ts us with
  | last hbreak =>
    have hts : ∀ t ∈ ts, t.kind ≠ .newline := by
      intro t ht
      apply hbreak t.word
      rw [← hws]
      exact List.mem_map_of_mem ht
    have hus : ∀ u ∈ us, u.kind ≠ .newline := by
      intro u hu
      apply hbreak u.word
      rw [← hvs]
      exact List.mem_map_of_mem hu
    -- no line ends in a break, so all words are one line
    rw [SourceLine.split_of_no_newline hts, SourceLine.split_of_no_newline hus]
    exact ⟨[], _, [], _, rfl, rfl, hws.trans hvs.symm, .nil, .nil⟩
  | @line l ls ws vs n n' hl hn hn' _ ih =>
    obtain ⟨a, ts, rfl, ha, hts⟩ := Lexeme.words_eq_append.mp hws
    obtain ⟨m, ts, rfl, hm, hts⟩ := Lexeme.words_eq_cons.mp hts
    obtain ⟨a', us, rfl, ha', hus⟩ := Lexeme.words_eq_append.mp hvs
    obtain ⟨m', us, rfl, hm', hus⟩ := Lexeme.words_eq_cons.mp hus
    -- the first break ends the first line in both, and the others are cut off behind it
    obtain ⟨xs, x, xs', x', hxs, hxs', hx, hlines, hlines'⟩ := ih hts hus
    have hbreak : ∀ t ∈ a, t.kind ≠ .newline := kind_ne_newline_of_words hl ha
    have hbreak' : ∀ t ∈ a', t.kind ≠ .newline := kind_ne_newline_of_words (by simpa using hl) ha'
    refine ⟨⟨a, m.toToken⟩ :: xs, x, ⟨a', m'.toToken⟩ :: xs', x', ?_, ?_, hx, .cons ha hlines,
      .cons ha' hlines'⟩
    · rw [SourceLine.split_append_newline hbreak ((congrArg Word.kind hm).trans hn), hxs]
      rfl
    · rw [SourceLine.split_append_newline hbreak' ((congrArg Word.kind hm').trans hn'), hxs']
      rfl

end Returns

/-! ## Section 2: The lines that count -/

theorem SourceLine.dropBlankEnd_cons (y : SourceLine) {xs : List SourceLine} (hne : xs ≠ []) :
    dropBlankEnd (y :: xs) = y :: dropBlankEnd xs := by
  obtain ⟨z, zs, rfl⟩ := List.exists_cons_of_ne_nil hne
  rfl

theorem SourceLine.dropBlankEnd_concat (xs : List SourceLine) (x : SourceLine) :
    dropBlankEnd (xs ++ [x]) = if x.words.isEmpty then xs else xs ++ [x] := by
  induction xs with
  | nil => rfl
  | cons y xs ih =>
    rw [List.cons_append, dropBlankEnd_cons y (by simp), ih]
    split <;> rfl

/-- With a line break between the delimiters, the first line counts if it has words, and the comment
is on one line just then. -/
theorem SourceLine.content_of_split {stop : Token} {ts : List Lexeme} {x : SourceLine}
    {xs : List SourceLine} (h : (split stop ts).1 :: (split stop ts).2 = x :: xs) (hne : xs ≠ []) :
    content stop ts = if x.words.isEmpty then (false, dropBlankEnd xs)
      else (true, dropBlankEnd (x :: xs)) := by
  obtain ⟨y, xs, rfl⟩ := List.exists_cons_of_ne_nil hne
  obtain ⟨hfirst, hrest⟩ := List.cons.inj h
  have hsplit : split stop ts = (x, y :: xs) := Prod.ext hfirst hrest
  rw [content, hsplit]
  obtain ⟨words, stop'⟩ := x
  cases words <;> rfl

/-- Without a line break, the comment is on one line. -/
theorem SourceLine.content_of_split_single {stop : Token} {ts : List Lexeme} {x : SourceLine}
    (h : (split stop ts).1 :: (split stop ts).2 = [x]) :
    content stop ts = (true, dropBlankEnd [x]) := by
  obtain ⟨hfirst, hrest⟩ := List.cons.inj h
  have hsplit : split stop ts = (x, []) := Prod.ext hfirst hrest
  rw [content, hsplit]
  obtain ⟨words, stop'⟩ := x
  cases words <;> rfl

/-- A text has no words when it is blank. -/
theorem Word.scan_eq_nil_iff {l : Text} : scan [] l = [] ↔ Blanks l := by
  constructor
  · intro h
    obtain ⟨tail, hl, -, htail⟩ := exists_scan l
    rw [h, source_nil, List.nil_append] at hl
    rwa [hl]
  · intro h
    exact scan_of_blanks h []

namespace Line

/-- Lines are read one by one. -/
theorem readAll_cons_eq_ok {line : SourceLine} {rest : List SourceLine} {lines : List Line} :
    readAll (line :: rest) = .ok lines ↔
      ∃ x xs, lines = x :: xs ∧ read line = .ok x ∧ readAll rest = .ok xs := by
  simp only [readAll_eq_ok_iff, List.forall₂_cons_left_iff]
  constructor
  · rintro ⟨x, xs, hx, hxs, rfl⟩
    exact ⟨x, xs, rfl, hx, hxs⟩
  · rintro ⟨x, xs, rfl, hx, hxs⟩
    exact ⟨x, xs, hx, hxs, rfl⟩

/-- What is read of a line depends on its words alone. -/
theorem readAll_of_words_eq {line line' : SourceLine} (h : words line.words = words line'.words)
    {lines : List Line} : readAll [line] = .ok lines ↔ readAll [line'] = .ok lines := by
  simp only [readAll_cons_eq_ok]
  constructor
  · rintro ⟨x, xs, rfl, hx, hxs⟩
    exact ⟨x, xs, rfl, read_of_words_eq h hx, hxs⟩
  · rintro ⟨x, xs, rfl, hx, hxs⟩
    exact ⟨x, xs, rfl, read_of_words_eq h.symm hx, hxs⟩

/-- Lines are the same with returns at their ends, unless one of them is bare. -/
theorem readAll_returns {ls : List Text} {xs xs' : List SourceLine} {x x' : SourceLine}
    (hxs : List.Forall₂ (fun l line => words line.words = scan [] l) ls xs)
    (hxs' : List.Forall₂ (fun l line => words line.words = scan [] (l ++ ['\r'])) ls xs')
    (hx : words x.words = words x'.words) (lines : List Line) :
    readAll (SourceLine.dropBlankEnd (xs ++ [x])) = .ok lines ↔
      readAll (SourceLine.dropBlankEnd (xs' ++ [x'])) = .ok lines ∧ ∀ l ∈ ls, ¬IsBare l := by
  have hlast {e f : List SourceLine}
      (hend : ∀ lines, readAll e = .ok lines ↔ readAll f = .ok lines) :
      readAll (xs ++ e) = .ok lines ↔
        readAll (xs' ++ f) = .ok lines ∧ ∀ l ∈ ls, ¬IsBare l := by
    clear hx
    -- induction on the lines that end in a return
    induction hxs generalizing xs' lines with
    | nil =>
      cases hxs'
      simpa using hend lines
    | @cons l line ls xs hline _ ih =>
      cases hxs' with
      | @cons _ line' _ xs' hline' hxs' =>
        simp only [List.cons_append, readAll_cons_eq_ok, List.forall_mem_cons]
        constructor
        · rintro ⟨y, ys, rfl, hy, hys⟩
          obtain ⟨hy, hbare⟩ := (read_return hline hline').mp hy
          obtain ⟨hys, hbares⟩ := (ih hxs' _).mp hys
          exact ⟨⟨y, ys, rfl, hy, hys⟩, hbare, hbares⟩
        · rintro ⟨⟨y, ys, rfl, hy, hys⟩, hbare, hbares⟩
          exact ⟨y, ys, rfl, (read_return hline hline').mpr ⟨hy, hbare⟩, (ih hxs' _).mpr ⟨hys, hbares⟩⟩
  -- the last line has no return, so it counts in both comments or in neither
  have hempty : x'.words.isEmpty = x.words.isEmpty := by
    have hlen := congrArg List.length hx
    rw [Lexeme.length_words, Lexeme.length_words] at hlen
    rw [Bool.eq_iff_iff, List.isEmpty_iff_length_eq_zero, List.isEmpty_iff_length_eq_zero, hlen]
  rw [SourceLine.dropBlankEnd_concat, SourceLine.dropBlankEnd_concat, hempty]
  split
  · simpa using hlast (e := []) (f := []) (fun _ => Iff.rfl)
  · exact hlast fun lines => readAll_of_words_eq hx

end Line

/-- Is the first of the lines that end in a break blank? -/
def opensBlank (ls : List Text) : Bool :=
  ls.head?.any fun l => l.all Text.isBlank

/-- The lines of a comment whose line breaks have returns: where the opening had a line to itself,
that line now counts. -/
def Line.withOpening (ls : List Text) (lines : List Line) : List Line :=
  if opensBlank ls then .text [] :: lines else lines

/-- What counts inside a comment with and without returns. -/
theorem Returns.content {ls : List Text} {ts us : List Lexeme}
    (h : Returns ls (words ts) (words us)) (stop stop' : Token) :
    (SourceLine.content stop' us).1 = true ∧ (SourceLine.content stop ts).1 = !opensBlank ls ∧
      ∀ lines', (Line.readAll (SourceLine.content stop' us).2 = .ok lines' ∧
          ∀ l ∈ ls, ¬Line.IsBare l) ↔
        ∃ lines, Line.readAll (SourceLine.content stop ts).2 = .ok lines ∧
          lines' = Line.withOpening ls lines := by
  obtain ⟨xs, x, xs', x', hsplit, hsplit', hx, hxs, hxs'⟩ := h.split stop stop'
  cases hxs with
  | nil =>
    cases hxs'
    -- a single line has no break, and no return either
    rw [SourceLine.content_of_split_single hsplit, SourceLine.content_of_split_single hsplit']
    refine ⟨rfl, rfl, ?_⟩
    intro lines'
    have hread := Line.readAll_returns .nil .nil hx lines'
    rw [List.nil_append, List.nil_append] at hread
    rw [← hread]
    simp [Line.withOpening, opensBlank]
  | @cons l line ls xs hline hxs =>
    cases hxs' with
    | @cons _ line' _ xs' hline' hxs' =>
      have hempty : line.words.isEmpty = opensBlank (l :: ls) := by
        rw [Bool.eq_iff_iff, List.isEmpty_iff, ← Lexeme.words_eq_nil, hline, Word.scan_eq_nil_iff]
        simp [opensBlank, Blanks]
      -- with a return the first line is never empty
      have hempty' : line'.words.isEmpty = false := by
        rw [List.isEmpty_eq_false_iff, ne_eq, ← Lexeme.words_eq_nil, hline', Word.scan_eq_nil_iff]
        intro hblank
        have := hblank '\r' (by simp)
        cases this
      rw [List.cons_append] at hsplit hsplit'
      rw [SourceLine.content_of_split hsplit (by simp), SourceLine.content_of_split hsplit' (by simp),
        hempty, hempty']
      cases hopens : opensBlank (l :: ls) with
      | false =>
        refine ⟨rfl, rfl, ?_⟩
        intro lines'
        -- something stands behind the opening, so the first line counts in both
        have hread := Line.readAll_returns (.cons hline hxs) (.cons hline' hxs') hx lines'
        simp only [Line.withOpening, hopens, Bool.false_eq_true, if_false, exists_eq_right']
        exact hread.symm
      | true =>
        refine ⟨rfl, rfl, ?_⟩
        intro lines'
        -- the opening has nothing behind it, and with the return that is an empty line
        have hnil : line.words = [] := List.isEmpty_iff.mp (hempty.trans hopens)
        have hfirst : Line.read line = .ok (.text []) := by
          rw [Line.read, hnil]
          rfl
        obtain ⟨hfirst', hbare⟩ := (Line.read_return hline hline').mp hfirst
        have hread := Line.readAll_returns hxs hxs' hx
        have hne : xs' ++ [x'] ≠ [] := by simp
        simp only [Bool.false_eq_true, if_false, if_true, Line.withOpening, hopens,
          SourceLine.dropBlankEnd_cons line' hne, Line.readAll_cons_eq_ok,
          hread, List.forall_mem_cons]
        constructor
        · rintro ⟨⟨y, ys, rfl, hy, hys⟩, -, hbares⟩
          obtain rfl := Except.ok.inj (hfirst'.symm.trans hy)
          exact ⟨ys, ⟨hys, hbares⟩, rfl⟩
        · rintro ⟨lines, ⟨hlines, hbares⟩, rfl⟩
          exact ⟨⟨_, lines, rfl, hfirst', hlines⟩, hbare, hbares⟩

/-! ## Section 3: Comments -/

namespace Text

/-- A front without returns stands in a text with returns as it does in the text without. -/
theorem of_withReturns_eq_append {s a r : Text} (ha : ∀ c ∈ a, c ≠ '\r')
    (h : withReturns s = a ++ r) : ∃ rest, s = a ++ rest ∧ withReturns rest = r := by
  -- induction on the text in front, which has no return and so no line break either
  induction a generalizing s with
  | nil => exact ⟨s, rfl, h⟩
  | cons c a ih =>
    obtain ⟨hc, hrest⟩ := List.forall_mem_cons.mp ha
    cases s with
    | nil => cases h
    | cons d s =>
      by_cases hd : d = '\n'
      · rw [hd] at h
        obtain ⟨hreturn, -⟩ := List.cons.inj h
        exact absurd hreturn.symm hc
      · have hcons : withReturns (d :: s) = d :: withReturns s := by simp [withReturns, hd]
        rw [hcons] at h
        rw [List.cons_append, List.cons.injEq] at h
        obtain ⟨rfl, h⟩ := h
        obtain ⟨rest, hs, hr⟩ := ih hrest h
        exact ⟨rest, congrArg (d :: ·) hs, hr⟩

/-- No line break stands before or behind what a text says. -/
structure Enclosed (s : Text) : Prop where
  front : ∀ l ∈ (s.splitOn '\n').head?, ¬Blanks l
  back : ∀ l ∈ (s.splitOn '\n').getLast?, ¬Blanks l

/-- What follows the opening delimiter of a comment. -/
def behindOpening (s : Text) : Text :=
  (s.dropWhile isBlank).drop 3

/-- The lines behind the opening delimiter that end in a line break. -/
def brokenLines (s : Text) : List Text :=
  ((behindOpening s).splitOn '\n').dropLast

theorem behindOpening_append {b : Text} (hb : Blanks b) (rest : Text) :
    behindOpening (b ++ ("/**".toList ++ rest)) = rest := by
  unfold behindOpening
  rw [dropWhile_blanks_append hb]
  rfl

/-- The first line is not blank when the first word is no line break. -/
theorem head_scan_iff {s : Text} : (∀ l ∈ (s.splitOn '\n').head?, ¬Blanks l) ↔
    ∃ w ∈ (scan [] s).head?, w.kind ≠ .newline := by
  have hfirst {l : Text} (hl : '\n' ∉ l) (ws : List Word) (hws : ∀ w ∈ ws.head?, w.kind = .newline) :
      ¬Blanks l ↔ ∃ w ∈ (scan [] l ++ ws).head?, w.kind ≠ .newline := by
    rw [← Word.scan_eq_nil_iff]
    have hwords := kind_ne_newline_of_scan hl
    cases hscan : scan [] l with
    | nil => simpa using hws
    | cons w rest => simpa [hscan] using hwords w (by simp [hscan])
  induction s using Text.linewise with
  | last l hl => simpa [List.splitOn_eq_singleton hl] using hfirst hl [] (by simp)
  | line l rest hl _ =>
    obtain ⟨gap, hscan⟩ := Word.scan_append_newline l rest
    rw [List.splitOn_append_cons_self_of_not_mem hl, hscan, ← hfirst hl _ (by simp)]
    simp

/-- The last line is not blank when the last word is no line break. -/
theorem getLast_scan_iff {s : Text} : (∀ l ∈ (s.splitOn '\n').getLast?, ¬Blanks l) ↔
    ∃ w ∈ (scan [] s).getLast?, w.kind ≠ .newline := by
  -- induction on the lines; the last word is that of the last line, or the break in front of it
  induction s using Text.linewise with
  | last l hl =>
    rw [List.splitOn_eq_singleton hl, List.getLast?_singleton]
    simp only [Option.mem_some_iff, forall_eq', ← Word.scan_eq_nil_iff]
    have hwords := kind_ne_newline_of_scan hl
    rcases List.eq_nil_or_concat (scan [] l) with hscan | ⟨ws, w, hscan⟩
    · simp [hscan]
    · simpa [hscan] using hwords w (by simp [hscan])
  | line l rest hl ih =>
    obtain ⟨gap, hscan⟩ := Word.scan_append_newline l rest
    obtain ⟨first, others, hsplit⟩ := List.exists_cons_of_ne_nil (List.splitOn_ne_nil '\n' rest)
    rw [List.splitOn_append_cons_self_of_not_mem hl, hscan]
    rw [hsplit] at ih ⊢
    rw [List.getLast?_cons_cons, ih, List.getLast?_append]
    rcases List.eq_nil_or_concat (scan [] rest) with hrest | ⟨ws, w, hrest⟩
    · simp [hrest]
    · rw [hrest, List.concat_eq_append, ← List.cons_append, List.getLast?_concat,
        List.getLast?_concat]
      rfl

/-- A text is enclosed if it neither begins nor ends with a line break, but for blanks. -/
theorem enclosed_iff {s : Text} :
    Enclosed s ↔ (∃ w ∈ (scan [] s).head?, w.kind ≠ .newline) ∧
      ∃ w ∈ (scan [] s).getLast?, w.kind ≠ .newline := by
  rw [← head_scan_iff, ← getLast_scan_iff]
  exact ⟨fun h => ⟨h.front, h.back⟩, fun ⟨front, back⟩ => ⟨front, back⟩⟩

/-- The opening delimiter is the same in a text with returns. -/
theorem withReturns_opening {b : Text} (hb : Blanks b) (rest : Text) :
    withReturns (b ++ ("/**".toList ++ rest)) = b ++ ("/**".toList ++ withReturns rest) := by
  have hbreak : '\n' ∉ b := fun h => by cases hb _ h
  rw [withReturns_append, withReturns_append, withReturns_of_not_mem hbreak]
  rfl

/-- A text that is one with returns and begins with the opening delimiter had it before. -/
theorem exists_of_withReturns_opening {s b r : Text} (hb : Blanks b)
    (h : withReturns s = b ++ ("/**".toList ++ r)) :
    ∃ rest, s = b ++ ("/**".toList ++ rest) ∧ withReturns rest = r := by
  -- there is no return up to the opening delimiter
  have hbreak : ∀ c ∈ b ++ "/**".toList, c ≠ '\r' := by
    intro c hc
    rcases List.mem_append.mp hc with hc | hc
    · rintro rfl
      cases hb _ hc
    · rintro rfl
      revert hc
      decide
  rw [← List.append_assoc] at h
  obtain ⟨rest, hs, hrest⟩ := of_withReturns_eq_append hbreak h
  exact ⟨rest, by rw [hs, List.append_assoc], hrest⟩

end Text

/-- The words of a text that begins with the opening delimiter. -/
theorem Word.scan_opening {b : Text} (hb : Blanks b) (rest : Text) :
    scan [] (b ++ ("/**".toList ++ rest)) = ⟨.openDoc, "/**".toList, b⟩ :: scan [] rest :=
  scan_word (k := .openDoc) rfl (by decide) hb fun _ _ => rfl

/-- A text whose first word is the opening delimiter begins with it. -/
theorem Word.exists_of_scan_opening {s : Text} {w : Word} {ws : List Word}
    (h : scan [] s = w :: ws) (hw : w.kind = .openDoc) :
    ∃ b rest, Blanks b ∧ s = b ++ ("/**".toList ++ rest) ∧ scan [] rest = ws := by
  obtain ⟨tail, hs, hstands, htail⟩ := exists_scan s
  rw [h] at hs hstands
  obtain ⟨⟨hforms, -, hgap⟩, -, hws⟩ := hstands
  rw [hw] at hforms
  rw [source_cons, Token.eq_of_forms_symbol hforms rfl, List.append_assoc, List.append_assoc] at hs
  exact ⟨w.gap, source ws ++ tail, hgap, hs, scan_eq hws htail⟩

/-- A line break is never the first word of a text with returns, and the word before it is no
delimiter. -/
theorem Returns.exists_other {ls : List Text} {ws vs a b : List Word} {n : Word}
    (h : Returns ls ws vs) (hvs : vs = a ++ n :: b) (hn : n.kind = .newline) :
    ∃ (a' : List Word) (w : Word), a = a' ++ [w] ∧ w.kind = .other := by
  induction h generalizing a with
  | last hbreak =>
    subst hvs
    exact absurd hn (hbreak n (by simp))
  | @line l ls ws vs m m' hl _ hm' _ ih =>
    obtain ⟨vs', w, hscan, hw⟩ := (Word.trailed_scan l).exists_concat
    -- the break is the one of this line, one further on, or none
    obtain ⟨c, rfl, hc⟩ | ⟨c, hline, hc⟩ := List.append_eq_append_iff.mp hvs
    · cases c with
      | nil => exact ⟨vs', w, by simpa using hscan, hw⟩
      | cons v c =>
        rw [List.cons_append, List.cons.injEq] at hc
        obtain ⟨rfl, hc⟩ := hc
        obtain ⟨c', w, rfl, hw⟩ := ih hc
        exact ⟨scan [] (l ++ ['\r']) ++ m' :: c', w, by simp, hw⟩
    · cases c with
      | nil => exact ⟨vs', w, by simpa [hline] using hscan, hw⟩
      | cons v c =>
        -- there is no break on the line itself
        obtain ⟨rfl, -⟩ := List.cons.inj hc
        have hmem : n ∈ scan [] (l ++ ['\r']) := by simp [hline]
        exact absurd hn (kind_ne_newline_of_scan (by simpa using hl) n hmem)

namespace Comment

/-- The words of a text that is a comment. -/
theorem scan_of_parse {s : Text} {c : Comment} (h : parse s = .ok c) :
    ∃ (lead : List Word) (w : Word) (ws : List Word) (k : Word) (trail : List Word),
      scan [] s = lead ++ w :: (ws ++ k :: trail) ∧
      (∀ n ∈ lead, n.kind = .newline) ∧ w.kind = .openDoc ∧ k.kind = .closeDoc ∧
      ∀ n ∈ trail, n.kind = .newline := by
  -- outside the delimiters a comment has line breaks only
  obtain ⟨lead, opening, inside, closing, trail, hs, hlead, hopen, -, hclose, htrail, -⟩ :=
    parse_eq_ok_iff.mp h
  refine ⟨words lead, opening.word, words inside, closing.word, words trail, ?_, ?_, hopen, hclose, ?_⟩
  · rw [← Word.words_ofText, hs]
    simp
  · intro n hn
    obtain ⟨t, ht, rfl⟩ := List.mem_map.mp hn
    exact hlead t ht
  · intro n hn
    obtain ⟨t, ht, rfl⟩ := List.mem_map.mp hn
    exact htrail t ht

/-- A text that opens and closes as a comment does, read part by part. -/
theorem parse_opening_eq_ok_iff {b rest : Text} {ws : List Word} {k : Word} (hb : Blanks b)
    (hws : scan [] rest = ws ++ [k]) (hk : k.kind = .closeDoc) :
    ∃ ts stop, words ts = ws ∧ ∀ c, parse (b ++ ("/**".toList ++ rest)) = .ok c ↔
      (∀ w ∈ ws, w.kind ≠ .closeDoc) ∧ Line.readAll (SourceLine.content stop ts).2 = .ok c.lines ∧
        c.indent = b ∧ c.oneLine = (SourceLine.content stop ts).1 := by
  have hscan := Word.scan_opening hb rest
  rw [hws, ← Word.words_ofText] at hscan
  obtain ⟨opening, body, hs, hopening, hbody⟩ := Lexeme.words_eq_cons.mp hscan
  obtain ⟨ts, last, rfl, hts, hlast⟩ := Lexeme.words_eq_append.mp hbody
  obtain ⟨closing, rfl, hclosing⟩ := Lexeme.words_eq_singleton.mp hlast
  have hopen : opening.kind = .openDoc := congrArg Word.kind hopening
  have hclose : closing.kind = .closeDoc := (congrArg Word.kind hclosing).trans hk
  have hgap : opening.gap = b := congrArg Word.gap hopening
  refine ⟨ts, closing.toToken, hts, fun c => ?_⟩
  rw [parse_eq_ok_iff_of_parts hs hopen hclose (by simp), hgap, ← hts]
  simp [words]

/-- A text that opens with `b` and the delimiter, and closes with `k`. Between them stand the words
`ws`, or `vs` with returns. -/
structure Delimited (b rest : Text) (ws vs : List Word) (k : Word) : Prop where
  blanks : Blanks b
  closes : k.kind = .closeDoc
  scan_rest : scan [] rest = ws ++ [k]
  scan_returns : scan [] (Text.withReturns rest) = vs ++ [k]
  returns : Returns (rest.splitOn '\n').dropLast ws vs

section Delimited

variable {b rest : Text} {ws vs : List Word} {k : Word}

/-- A comment is on one line if something stands on the line of its opening delimiter, or if it has
no line break. -/
theorem Delimited.oneLine (h : Delimited b rest ws vs k) {c : Comment}
    (hparse : parse (b ++ ("/**".toList ++ rest)) = .ok c) :
    c.oneLine = !opensBlank (rest.splitOn '\n').dropLast := by
  obtain ⟨ts, stop, rfl, hts⟩ := parse_opening_eq_ok_iff h.blanks h.scan_rest h.closes
  obtain ⟨us, stop', rfl, -⟩ := parse_opening_eq_ok_iff h.blanks h.scan_returns h.closes
  obtain ⟨-, -, -, hone⟩ := (hts c).mp hparse
  obtain ⟨-, honeLine, -⟩ := h.returns.content stop stop'
  exact hone.trans honeLine

/-- Behind the opening delimiter, a comment is the same with returns at its line ends. -/
theorem Delimited.parse_iff (h : Delimited b rest ws vs k) {c' : Comment} :
    (parse (b ++ ("/**".toList ++ Text.withReturns rest)) = .ok c' ∧
        ∀ l ∈ (rest.splitOn '\n').dropLast, ¬Line.IsBare l) ↔
      ∃ c, parse (b ++ ("/**".toList ++ rest)) = .ok c ∧
        c' = ⟨Line.withOpening (rest.splitOn '\n').dropLast c.lines, c.indent, true⟩ := by
  obtain ⟨ts, stop, rfl, hts⟩ := parse_opening_eq_ok_iff h.blanks h.scan_rest h.closes
  obtain ⟨us, stop', rfl, hus⟩ := parse_opening_eq_ok_iff h.blanks h.scan_returns h.closes
  -- both comments are read line by line, and `hread` compares the lines
  obtain ⟨honeLine', -, hread⟩ := h.returns.content stop stop'
  simp only [hts, hus, h.returns.closeDoc_iff, honeLine']
  constructor
  · rintro ⟨⟨hinside, hlines', hindent, hone⟩, hbare⟩
    obtain ⟨lines, hlines, hopening⟩ := (hread _).mp ⟨hlines', hbare⟩
    refine ⟨⟨lines, b, _⟩, ⟨hinside, hlines, rfl, rfl⟩, ?_⟩
    rw [← hopening, ← hindent, ← hone]
  · rintro ⟨c, ⟨hinside, hlines, hindent, -⟩, rfl⟩
    obtain ⟨hlines', hbare⟩ := (hread _).mpr ⟨c.lines, hlines, rfl⟩
    exact ⟨⟨hinside, hlines', hindent, rfl⟩, hbare⟩

end Delimited

/-- Nothing stands before or behind a comment that is enclosed. -/
theorem delimited_of_enclosed {s : Text} {c : Comment} (henclosed : Text.Enclosed s)
    (h : parse s = .ok c) :
    ∃ b rest ws vs k, s = b ++ ("/**".toList ++ rest) ∧ Delimited b rest ws vs k := by
  obtain ⟨lead, w, ws, k, trail, hscan, hlead, hw, hk, htrail⟩ := scan_of_parse h
  obtain ⟨⟨first, hfirst, hfront⟩, last, hlast, hback⟩ := Text.enclosed_iff.mp henclosed
  obtain rfl : lead = [] := by
    cases lead with
    | nil => rfl
    | cons n lead =>
      rw [hscan] at hfirst
      obtain rfl : n = first := by simpa using hfirst
      exact absurd (hlead n (by simp)) hfront
  -- nothing follows the closing delimiter either
  obtain rfl : trail = [] := by
    rcases List.eq_nil_or_concat trail with htrail' | ⟨trail', n, rfl⟩
    · exact htrail'
    · rw [hscan, List.concat_eq_append, ← List.cons_append, ← List.append_assoc, ← List.cons_append,
        ← List.append_assoc, List.getLast?_concat] at hlast
      obtain rfl : n = last := by simpa using hlast
      exact absurd (htrail n (by simp)) hback
  rw [List.nil_append] at hscan
  obtain ⟨b, rest, hb, hs, hws⟩ := Word.exists_of_scan_opening hscan hw
  obtain ⟨vs, hvs, hreturns⟩ :=
    Returns.of_concat (k := k) (by rw [hk]; decide) (hws ▸ Returns.of_scan rest)
  exact ⟨b, rest, ws, vs, k, hs, hb, hk, hws, hvs, hreturns⟩

/-- Nothing stands before or behind a comment whose line breaks have returns. -/
theorem delimited_of_withReturns {s : Text} {c : Comment}
    (h : parse (Text.withReturns s) = .ok c) :
    ∃ b rest ws vs k, s = b ++ ("/**".toList ++ rest) ∧ Delimited b rest ws vs k := by
  obtain ⟨lead, w, ws, k, trail, hscan, hlead, hw, hk, htrail⟩ := scan_of_parse h
  have hreturns := Returns.of_scan s
  -- a break in front of the opening delimiter would have its return in front of it
  obtain rfl : lead = [] := by
    cases lead with
    | nil => rfl
    | cons n lead =>
      obtain ⟨a, v, hnil, -⟩ := hreturns.exists_other (a := []) hscan (hlead n (by simp))
      simp at hnil
  obtain rfl : trail = [] := by
    cases trail with
    | nil => rfl
    | cons n trail =>
      have hsplit : scan [] (Text.withReturns s) = (w :: ws ++ [k]) ++ n :: trail := by
        rw [hscan]
        simp
      obtain ⟨a, v, hconcat, hv⟩ := hreturns.exists_other hsplit (htrail n (by simp))
      obtain ⟨-, hlast⟩ := List.append_inj' hconcat rfl
      obtain rfl := (List.cons.inj hlast).1
      rw [hk] at hv
      cases hv
  rw [List.nil_append] at hscan
  obtain ⟨b, rest', hb, hs', hvs⟩ := Word.exists_of_scan_opening hscan hw
  obtain ⟨rest, hs, rfl⟩ := Text.exists_of_withReturns_opening hb hs'
  obtain ⟨us, hus, hrest⟩ :=
    Returns.of_concat_right (k := k) (by rw [hk]; decide) (hvs ▸ Returns.of_scan rest)
  exact ⟨b, rest, us, ws, k, hs, hb, hk, hus, hvs, hrest⟩

theorem Delimited.enclosed {b rest : Text} {ws vs : List Word} {k : Word}
    (h : Delimited b rest ws vs k) : Text.Enclosed (b ++ ("/**".toList ++ rest)) := by
  rw [Text.enclosed_iff, Word.scan_opening h.blanks, h.scan_rest, ← List.cons_append,
    List.getLast?_concat]
  simp [h.closes]

theorem oneLine_of_enclosed {s : Text} {c : Comment} (henclosed : Text.Enclosed s)
    (h : parse s = .ok c) : c.oneLine = !opensBlank (Text.brokenLines s) := by
  obtain ⟨b, rest, ws, vs, k, rfl, hdelimited⟩ := delimited_of_enclosed henclosed h
  rw [Text.brokenLines, Text.behindOpening_append hdelimited.blanks]
  exact hdelimited.oneLine h

/-- A text with returns is a comment if the text without is one and has no line break outside its
delimiters, unless it has a bare line.  Where the opening delimiter had a line to itself, that line
now counts. -/
theorem parse_withReturns_eq_ok_iff {s : Text} {c' : Comment} :
    (parse (Text.withReturns s) = .ok c' ∧ ∀ l ∈ Text.brokenLines s, ¬Line.IsBare l) ↔
      Text.Enclosed s ∧ ∃ c, parse s = .ok c ∧
        c' = ⟨Line.withOpening (Text.brokenLines s) c.lines, c.indent, true⟩ := by
  constructor
  · rintro ⟨hparse, hbare⟩
    obtain ⟨b, rest, ws, vs, k, rfl, hdelimited⟩ := delimited_of_withReturns hparse
    rw [Text.brokenLines, Text.behindOpening_append hdelimited.blanks] at hbare ⊢
    rw [Text.withReturns_opening hdelimited.blanks] at hparse
    exact ⟨hdelimited.enclosed, hdelimited.parse_iff.mp ⟨hparse, hbare⟩⟩
  · rintro ⟨henclosed, hparse⟩
    obtain ⟨c, hc, -⟩ := id hparse
    obtain ⟨b, rest, ws, vs, k, rfl, hdelimited⟩ := delimited_of_enclosed henclosed hc
    rw [Text.brokenLines, Text.behindOpening_append hdelimited.blanks] at hparse ⊢
    rw [Text.withReturns_opening hdelimited.blanks]
    exact hdelimited.parse_iff.mpr hparse

/-- What returns in front of the line breaks change.  A text with returns is a comment just when the
text without is one and has no line break outside its delimiters, bare lines apart.  A comment whose
opening delimiter has a line to itself gains an empty line; any other is the same comment, and is
formatted in the same way. -/
theorem parse_withReturns (s : Text) :
    (((∃ c', parse (Text.withReturns s) = .ok c') ∧ ∀ l ∈ Text.brokenLines s, ¬Line.IsBare l) ↔
      (∃ c, parse s = .ok c) ∧ Text.Enclosed s) ∧
    ∀ c, parse s = .ok c → Text.Enclosed s →
      if opensBlank (Text.brokenLines s) then
        c.oneLine = false ∧ parse (Text.withReturns s) = .ok ⟨.text [] :: c.lines, c.indent, true⟩
      else
        parse (Text.withReturns s) = .ok c ∧
          ∀ indent, Source.formatComment indent (Text.withReturns s) = Source.formatComment indent s := by
  constructor
  · constructor
    · rintro ⟨⟨c', hc'⟩, hbare⟩
      obtain ⟨henclosed, c, hc, -⟩ := parse_withReturns_eq_ok_iff.mp ⟨hc', hbare⟩
      exact ⟨⟨c, hc⟩, henclosed⟩
    · rintro ⟨⟨c, hc⟩, henclosed⟩
      obtain ⟨hc', hbare⟩ := parse_withReturns_eq_ok_iff.mpr ⟨henclosed, c, hc, rfl⟩
      exact ⟨⟨_, hc'⟩, hbare⟩
  · intro c hc henclosed
    have hone := oneLine_of_enclosed henclosed hc
    obtain ⟨hc', -⟩ := parse_withReturns_eq_ok_iff.mpr ⟨henclosed, c, hc, rfl⟩
    split
    · next hopens =>
      rw [Line.withOpening, if_pos hopens] at hc'
      rw [hopens] at hone
      exact ⟨hone, hc'⟩
    · next hopens =>
      rw [Bool.eq_false_iff.mpr hopens] at hone
      rw [Line.withOpening, if_neg hopens, ← show c.oneLine = true from hone] at hc'
      refine ⟨hc', fun indent => ?_⟩
      rw [Source.formatComment, Source.formatComment, hc', hc]

/-- A comment that begins on the line of its delimiter is the same with returns. -/
theorem parse_withReturns_same_line :
    parse (Text.withReturns "/** x\n * y\n */".toList) = .ok ⟨[.text ['x'], .text ['y']], [], true⟩ := by
  have hts : Lexeme.ofText "/** x\n * y\n */".toList =
      [⟨⟨.openDoc, "/**".toList, ⟨1, 1⟩⟩, []⟩, ⟨⟨.ident, ['x'], ⟨1, 5⟩⟩, [' ']⟩,
       ⟨⟨.newline, ['\n'], ⟨1, 6⟩⟩, []⟩, ⟨⟨.asterisk, ['*'], ⟨2, 2⟩⟩, [' ']⟩,
       ⟨⟨.ident, ['y'], ⟨2, 4⟩⟩, [' ']⟩, ⟨⟨.newline, ['\n'], ⟨2, 5⟩⟩, []⟩,
       ⟨⟨.closeDoc, "*/".toList, ⟨3, 2⟩⟩, [' ']⟩] := by
    cbv
  have hparse : parse "/** x\n * y\n */".toList = .ok ⟨[.text ['x'], .text ['y']], [], true⟩ := by
    rw [parse, hts]
    rfl
  have henclosed : Text.Enclosed "/** x\n * y\n */".toList := by
    refine ⟨fun l hl hblank => ?_, fun l hl hblank => ?_⟩
    · obtain rfl : "/** x".toList = l := Option.some.inj hl
      cases hblank '/' (by decide)
    · obtain rfl : " */".toList = l := Option.some.inj hl
      cases hblank '/' (by decide)
  exact ((parse_withReturns _).2 _ hparse henclosed).1

/-- Three texts that returns change: one gains an empty line, one is refused for what stands behind
it, and one is refused no more. -/
theorem parse_withReturns_differs :
    parse "/**\n * x\n */".toList = .ok ⟨[.text ['x']], [], false⟩ ∧
      parse (Text.withReturns "/**\n * x\n */".toList) = .ok ⟨[.text [], .text ['x']], [], true⟩ ∧
      parse "/** x */\n".toList = .ok ⟨[.text ['x']], [], true⟩ ∧
      (∃ e, parse (Text.withReturns "/** x */\n".toList) = .error e) ∧
      (∃ e, parse "/** @return\n */".toList = .error e) ∧
      parse (Text.withReturns "/** @return\n */".toList) =
        .ok ⟨[.tag (.other "return".toList [])], [], true⟩ := by
  have hopening : Lexeme.ofText "/**\n * x\n */".toList =
      [⟨⟨.openDoc, "/**".toList, ⟨1, 1⟩⟩, []⟩, ⟨⟨.newline, ['\n'], ⟨1, 4⟩⟩, []⟩,
       ⟨⟨.asterisk, ['*'], ⟨2, 2⟩⟩, [' ']⟩, ⟨⟨.ident, ['x'], ⟨2, 4⟩⟩, [' ']⟩,
       ⟨⟨.newline, ['\n'], ⟨2, 5⟩⟩, []⟩, ⟨⟨.closeDoc, "*/".toList, ⟨3, 2⟩⟩, [' ']⟩] := by
    cbv
  have hopening' : Lexeme.ofText "/**\r\n * x\r\n */".toList =
      [⟨⟨.openDoc, "/**".toList, ⟨1, 1⟩⟩, []⟩, ⟨⟨.other, ['\r'], ⟨1, 4⟩⟩, []⟩,
       ⟨⟨.newline, ['\n'], ⟨1, 5⟩⟩, []⟩, ⟨⟨.asterisk, ['*'], ⟨2, 2⟩⟩, [' ']⟩,
       ⟨⟨.ident, ['x'], ⟨2, 4⟩⟩, [' ']⟩, ⟨⟨.other, ['\r'], ⟨2, 5⟩⟩, []⟩,
       ⟨⟨.newline, ['\n'], ⟨2, 6⟩⟩, []⟩, ⟨⟨.closeDoc, "*/".toList, ⟨3, 2⟩⟩, [' ']⟩] := by
    cbv
  have htrail : Lexeme.ofText "/** x */\n".toList =
      [⟨⟨.openDoc, "/**".toList, ⟨1, 1⟩⟩, []⟩, ⟨⟨.ident, ['x'], ⟨1, 5⟩⟩, [' ']⟩,
       ⟨⟨.closeDoc, "*/".toList, ⟨1, 7⟩⟩, [' ']⟩, ⟨⟨.newline, ['\n'], ⟨1, 9⟩⟩, []⟩] := by
    cbv
  have htrail' : Lexeme.ofText "/** x */\r\n".toList =
      [⟨⟨.openDoc, "/**".toList, ⟨1, 1⟩⟩, []⟩, ⟨⟨.ident, ['x'], ⟨1, 5⟩⟩, [' ']⟩,
       ⟨⟨.closeDoc, "*/".toList, ⟨1, 7⟩⟩, [' ']⟩, ⟨⟨.other, ['\r'], ⟨1, 9⟩⟩, []⟩,
       ⟨⟨.newline, ['\n'], ⟨1, 10⟩⟩, []⟩] := by
    cbv
  have hbare : Lexeme.ofText "/** @return\n */".toList =
      [⟨⟨.openDoc, "/**".toList, ⟨1, 1⟩⟩, []⟩, ⟨⟨.tag, "@return".toList, ⟨1, 5⟩⟩, [' ']⟩,
       ⟨⟨.newline, ['\n'], ⟨1, 12⟩⟩, []⟩, ⟨⟨.closeDoc, "*/".toList, ⟨2, 2⟩⟩, [' ']⟩] := by
    cbv
  have hbare' : Lexeme.ofText "/** @return\r\n */".toList =
      [⟨⟨.openDoc, "/**".toList, ⟨1, 1⟩⟩, []⟩, ⟨⟨.tag, "@return".toList, ⟨1, 5⟩⟩, [' ']⟩,
       ⟨⟨.other, ['\r'], ⟨1, 12⟩⟩, []⟩, ⟨⟨.newline, ['\n'], ⟨1, 13⟩⟩, []⟩,
       ⟨⟨.closeDoc, "*/".toList, ⟨2, 2⟩⟩, [' ']⟩] := by
    cbv
  have hreturns : Text.withReturns "/**\n * x\n */".toList = "/**\r\n * x\r\n */".toList ∧
      Text.withReturns "/** x */\n".toList = "/** x */\r\n".toList ∧
      Text.withReturns "/** @return\n */".toList = "/** @return\r\n */".toList := by
    decide
  rw [hreturns.1, hreturns.2.1, hreturns.2.2]
  refine ⟨?_, ?_, ?_, ?_, ?_, ?_⟩
  · rw [parse, hopening]
    rfl
  · rw [parse, hopening']
    rfl
  · rw [parse, htrail]
    rfl
  · rw [parse, htrail']
    exact ⟨_, rfl⟩
  · rw [parse, hbare]
    exact ⟨_, rfl⟩
  · rw [parse, hbare']
    rfl

end Comment

end Docblock
