import Docblock.Comment.Parser
import Docblock.Proofs.Lexeme.Phrase
import Mathlib.Data.List.Forall2

/-!
# The lines of a comment

`Comment.parse` takes a text apart at its delimiters and its line breaks.  This module says what
the parts are, and that a line break always divides the words before it from those after it: no
token reaches over one.

## Contents

1. `scan_append_newline`: the words on both sides of a line break; `linewise`: one line at a time.
2. `split_append_newline`, `words_split`: cutting lexemes at their line breaks.
3. `parse_eq_ok_iff`: the parts of a text that is a comment.
-/

namespace Docblock

open Lexeme (words)

/-! ## Section 1: Words around a line break -/

theorem Token.goesOn_newline (k : Kind) (t : Text) : goesOn k t '\n' = false := by
  cases k <;> simp [goesOn, Text.isBlank, endsOther] <;> decide

namespace Word

/-- A line break ends every word before it, and begins the next line afresh. -/
theorem scan_append_newline (x y : Text) :
    ∃ gap, scan [] (x ++ '\n' :: y) = scan [] x ++ ⟨.newline, ['\n'], gap⟩ :: scan [] y := by
  obtain ⟨tail, hx, hstands, htail⟩ := exists_scan x
  refine ⟨tail, ?_⟩
  -- the last word stops before the break, with blanks between them or without
  have hnext : Stands (scan [] x) (tail ++ '\n' :: y).head? := by
    cases tail with
    | nil =>
      apply hstands.of_last
      intro w _ d hd
      obtain rfl : '\n' = d := by simpa using hd
      exact Token.goesOn_newline w.kind w.text
    | cons c tail => exact hstands
  calc scan [] (x ++ '\n' :: y)
      = scan [] (source (scan [] x) ++ (tail ++ '\n' :: y)) := by
        rw [← List.append_assoc, ← hx]
    _ = scan [] x ++ scan [] (tail ++ '\n' :: y) := scan_source_append hnext
    _ = scan [] x ++ scan tail (['\n'] ++ y) := by
        rw [scan_blanks htail (by simp [Text.isBlank])]
        rfl
    _ = scan [] x ++ ⟨.newline, ['\n'], tail⟩ :: scan [] y := by
        rw [scan_token (show Token.Forms .newline ['\n'] from rfl) (by decide)
          (fun d _ => by simp [Token.goesOn])]

end Word

/-- A text without a line break has no word that is one. -/
theorem kind_ne_newline_of_scan {x : Text} (hx : '\n' ∉ x) : ∀ w ∈ Word.scan [] x, w.kind ≠ .newline := by
  intro w hw hk
  obtain ⟨tail, heq, hstands, -⟩ := Word.exists_scan x
  -- the only text of that kind
  have htext : w.text = ['\n'] := by
    have := (hstands.sound w hw).forms
    rw [hk] at this
    generalize w.text = t at this ⊢
    cases Token.shape_of_forms this with
    | symbol h => cases h
    | newline => rfl
  obtain ⟨a, b, hab⟩ := List.append_of_mem hw
  apply hx
  rw [heq, hab]
  simp [htext]

theorem kind_ne_newline_of_words {x : Text} (hx : '\n' ∉ x) {ts : List Lexeme}
    (hts : words ts = Word.scan [] x) : ∀ t ∈ ts, t.kind ≠ .newline := by
  intro t ht
  apply kind_ne_newline_of_scan hx t.word
  rw [← hts]
  exact List.mem_map_of_mem ht

/-- A property of all texts, from what it says of a text of one line and of a text that has one more
line in front. -/
@[elab_as_elim]
theorem Text.linewise {motive : Text → Prop} (s : Text) (last : ∀ l : Text, '\n' ∉ l → motive l)
    (line : ∀ l rest : Text, '\n' ∉ l → motive rest → motive (l ++ '\n' :: rest)) : motive s := by
  induction hn : s.length using Nat.strong_induction_on generalizing s with
  | _ n ih =>
    -- the first break cuts off a line, and what is left is shorter
    by_cases hs : '\n' ∈ s
    · obtain ⟨l, rest, rfl, hl⟩ := List.eq_append_cons_of_mem hs
      have hshorter : rest.length < n := by
        rw [List.length_append, List.length_cons] at hn
        omega
      exact line l rest hl (ih _ hshorter rest rfl)
    · exact last s hs

/-! ## Section 2: Cutting at line breaks -/

namespace SourceLine

variable {stop : Token}

/-- Lexemes are cut at the first line break. -/
theorem split_append_newline {ts rest : List Lexeme} {n : Lexeme}
    (hts : ∀ t ∈ ts, t.kind ≠ .newline) (hn : n.kind = .newline) :
    split stop (ts ++ n :: rest) =
      (⟨ts, n.toToken⟩, (split stop rest).1 :: (split stop rest).2) := by
  induction ts with
  | nil => simp [split, hn]
  | cons t ts ih =>
    obtain ⟨ht, hts⟩ := List.forall_mem_cons.mp hts
    simp [split, ih hts, ht]

theorem split_of_no_newline {ts : List Lexeme} (hts : ∀ t ∈ ts, t.kind ≠ .newline) :
    split stop ts = (⟨ts, stop⟩, []) := by
  induction ts with
  | nil => rfl
  | cons t ts ih =>
    obtain ⟨ht, hts⟩ := List.forall_mem_cons.mp hts
    simp [split, ih hts, ht]

/-- The lines of a text have the words that each of them has by itself. -/
theorem words_split {s : Text} {ts : List Lexeme} (hts : Lexeme.words ts = Word.scan [] s) (stop : Token) :
    List.Forall₂ (fun l line => Lexeme.words line.words = Word.scan [] l) (s.splitOn '\n')
      ((split stop ts).1 :: (split stop ts).2) := by
  -- line by line, in the text and in the lexemes
  induction s using Text.linewise generalizing ts with
  | last l hl =>
    rw [List.splitOn_eq_singleton hl, split_of_no_newline (kind_ne_newline_of_words hl hts)]
    exact .cons hts .nil
  | line l rest hl ih =>
    obtain ⟨gap, hscan⟩ := Word.scan_append_newline l rest
    rw [hscan] at hts
    obtain ⟨us, us', rfl, hus, hus'⟩ := Lexeme.words_eq_append.mp hts
    obtain ⟨n, vs, rfl, hn, hvs⟩ := Lexeme.words_eq_cons.mp hus'
    rw [List.splitOn_append_cons_self_of_not_mem hl,
      split_append_newline (kind_ne_newline_of_words hl hus) (congrArg Word.kind hn)]
    exact .cons hus (ih hvs)

/-- Every line is a part of what was cut, without a line break of its own. -/
theorem infix_of_mem_split {ts : List Lexeme} :
    ∀ line ∈ (split stop ts).1 :: (split stop ts).2,
      line.words <:+: ts ∧ ∀ t ∈ line.words, t.kind ≠ .newline := by
  have key : (split stop ts).1.words <+: ts ∧ (∀ t ∈ (split stop ts).1.words, t.kind ≠ .newline) ∧
      ∀ l ∈ (split stop ts).2, l.words <:+: ts ∧ ∀ t ∈ l.words, t.kind ≠ .newline := by
    induction ts with
    | nil => simp [split]
    | cons t ts ih =>
      obtain ⟨hfirst, hbreak, hothers⟩ := ih
      simp only [split]
      split
      · -- a line break: the first line is empty, and the others are moved on
        next ht =>
        refine ⟨List.nil_prefix, by simp, List.forall_mem_cons.mpr ⟨⟨?_, hbreak⟩, ?_⟩⟩
        · exact hfirst.isInfix.trans (List.suffix_cons t ts).isInfix
        · intro l hl
          exact ⟨(hothers l hl).1.trans (List.suffix_cons t ts).isInfix, (hothers l hl).2⟩
      · -- any other lexeme goes to the first line
        next ht =>
        refine ⟨List.cons_prefix_cons.mpr ⟨rfl, hfirst⟩, List.forall_mem_cons.mpr ⟨ht, hbreak⟩, ?_⟩
        intro l hl
        exact ⟨(hothers l hl).1.trans (List.suffix_cons t ts).isInfix, (hothers l hl).2⟩
  intro line h
  rcases List.mem_cons.mp h with rfl | h
  · exact ⟨key.1.isInfix, key.2.1⟩
  · exact key.2.2 line h

theorem dropBlankEnd_subset (lines : List SourceLine) : dropBlankEnd lines ⊆ lines := by
  fun_induction dropBlankEnd lines with
  | case1 => simp
  | case2 line h => simp
  | case3 line h => simp
  | case4 line rest h ih => exact List.cons_subset_cons line ih

/-- An empty line behind other lines is dropped. -/
theorem dropBlankEnd_append {lines : List SourceLine} (hne : lines ≠ []) (line : SourceLine)
    (h : line.words = []) : dropBlankEnd (lines ++ [line]) = lines := by
  induction lines with
  | nil => exact absurd rfl hne
  | cons l lines ih =>
    -- the line that is dropped is the last one
    cases lines with
    | nil => simp [dropBlankEnd, h]
    | cons l' lines =>
      have := ih (by simp)
      simp only [List.cons_append] at this ⊢
      rw [dropBlankEnd, this]
      simp

/-- The lines that count are lines of what was cut. -/
theorem content_subset (ts : List Lexeme) :
    (content stop ts).2 ⊆ (split stop ts).1 :: (split stop ts).2 := by
  intro line h
  unfold content at h
  -- the opening line is dropped if it is empty
  split at h
  · next l next rest hsplit =>
    rw [hsplit]
    exact List.mem_cons_of_mem _ (dropBlankEnd_subset _ h)
  · next first rest hcontent hsplit =>
    rw [hsplit]
    exact dropBlankEnd_subset _ h

/-- A line that counts has the words of a line of the text. -/
theorem exists_of_mem_content {s : Text} {ts : List Lexeme} (hts : Lexeme.words ts = Word.scan [] s)
    {line : SourceLine} (h : line ∈ (content stop ts).2) :
    ∃ l ∈ s.splitOn '\n', Lexeme.words line.words = Word.scan [] l := by
  have hmem := content_subset ts h
  -- the lines of the text are those of the lexemes, one by one
  have hsplit := words_split hts stop
  generalize s.splitOn '\n' = ls at hsplit ⊢
  generalize (split stop ts).1 :: (split stop ts).2 = lines at hmem hsplit
  induction hsplit with
  | nil => cases hmem
  | @cons l line' ls lines hwords _ ih =>
    rcases List.mem_cons.mp hmem with rfl | hmem
    · exact ⟨l, List.mem_cons_self, hwords⟩
    · obtain ⟨l', hl', h⟩ := ih hmem
      exact ⟨l', List.mem_cons_of_mem l hl', h⟩

theorem infix_of_mem_content {ts : List Lexeme} {line : SourceLine}
    (h : line ∈ (content stop ts).2) : line.words <:+: ts ∧ ∀ t ∈ line.words, t.kind ≠ .newline :=
  infix_of_mem_split line (content_subset ts h)

end SourceLine

/-- All lines are read if each of them is. -/
theorem Line.readAll_eq_ok_iff {sources : List SourceLine} {lines : List Line} :
    Line.readAll sources = .ok lines ↔
      List.Forall₂ (fun source line => Line.read source = .ok line) sources lines := by
  induction sources generalizing lines with
  | nil =>
    constructor
    · intro h
      cases h
      exact .nil
    · intro h
      cases h
      rfl
  | cons source sources ih =>
    rw [Line.readAll, bind_eq_ok]
    constructor
    · -- the first line is read, and the others after it
      rintro ⟨first, hfirst, h⟩
      rw [bind_eq_ok] at h
      obtain ⟨others, hothers, h⟩ := h
      cases h
      exact .cons hfirst (ih.mp hothers)
    · intro h
      cases h with
      | @cons _ first _ others hfirst hothers =>
        refine ⟨first, hfirst, ?_⟩
        rw [ih.mpr hothers]
        rfl

/-! ## Section 3: The parts of a comment -/

namespace Comment

/-- Behind the delimiter nothing but line breaks may stand. -/
theorem expectEnd_eq_ok {ts : List Lexeme} {u : Unit} :
    expectEnd ts = .ok u ↔ ∀ t ∈ ts, t.kind = .newline := by
  have hdrop : ts.dropWhile (·.kind = .newline) = [] ↔ ∀ t ∈ ts, t.kind = .newline := by
    simp [List.dropWhile_eq_nil_iff]
  unfold expectEnd
  split
  · next h => simpa using hdrop.mp h
  · -- something else comes first
    next t rest h =>
    rw [h] at hdrop
    simpa [refuse] using hdrop

theorem span_append_cons {α : Type} {p : α → Bool} {a : List α} {x : α} (ha : ∀ y ∈ a, p y = true)
    (hx : p x = false) (b : List α) :
    (a ++ x :: b).takeWhile p = a ∧ (a ++ x :: b).dropWhile p = x :: b := by
  rw [List.takeWhile_append_of_pos ha, List.dropWhile_append_of_pos ha,
    List.takeWhile_cons_of_neg (by simp [hx]), List.dropWhile_cons_of_neg (by simp [hx])]
  simp

/-- A text is a comment if its lexemes are those of a comment, part by part. -/
theorem parse_eq_ok_iff {s : Text} {c : Comment} :
    parse s = .ok c ↔ ∃ (lead : List Lexeme) (opening : Lexeme) (inside : List Lexeme)
      (closing : Lexeme) (trail : List Lexeme),
      Lexeme.ofText s = lead ++ opening :: (inside ++ closing :: trail) ∧
      (∀ t ∈ lead, t.kind = .newline) ∧ opening.kind = .openDoc ∧
      (∀ t ∈ inside, t.kind ≠ .closeDoc) ∧ closing.kind = .closeDoc ∧
      (∀ t ∈ trail, t.kind = .newline) ∧
      Line.readAll (SourceLine.content closing.toToken inside).2 = .ok c.lines ∧
      c.indent = lastGap (lead ++ [opening]) ∧
      c.oneLine = (SourceLine.content closing.toToken inside).1 := by
  constructor
  · -- follow the parser, which fails unless every part is there
    intro h
    unfold parse at h
    simp only at h
    split at h
    · cases h
    · next opening body hbody =>
      split at h
      · next hopen =>
        rw [bind_eq_ok] at h
        obtain ⟨lines, hlines, h⟩ := h
        split at h
        · next hclose =>
          rw [bind_eq_ok] at h
          obtain ⟨_, hend, h⟩ := h
          cases h
          cases hafter : body.dropWhile (·.kind ≠ .closeDoc) with
          | nil =>
            rw [hafter] at hclose
            cases hclose
          | cons closing trail =>
            simp only [hafter, List.head?_cons, Option.map_some, Option.getD_some, List.tail_cons]
              at hlines hclose hend ⊢
            -- the parts are cut where the parser cuts them
            refine ⟨(Lexeme.ofText s).takeWhile (·.kind = .newline), opening,
              body.takeWhile (·.kind ≠ .closeDoc), closing, trail, ?_, ?_, hopen, ?_, hclose,
              expectEnd_eq_ok.mp hend, hlines, rfl, rfl⟩
            · rw [← hafter, List.takeWhile_append_dropWhile, ← hbody,
                List.takeWhile_append_dropWhile]
            · intro t ht
              simpa using List.mem_takeWhile_imp ht
            · intro t ht
              simpa using List.mem_takeWhile_imp ht
        · cases h
      · cases h
  · rintro ⟨lead, opening, inside, closing, trail, hs, hlead, hopen, hinside, hclose, htrail,
      hlines, hindent, honeLine⟩
    obtain ⟨lines, indent, oneLine⟩ := c
    simp only at hlines hindent honeLine
    -- the parser makes the same cuts
    obtain ⟨hlead₁, hlead₂⟩ := span_append_cons (p := fun t : Lexeme => t.kind = .newline)
      (x := opening) (by simpa using hlead) (by simp [hopen]) (inside ++ closing :: trail)
    obtain ⟨hinside₁, hinside₂⟩ := span_append_cons (p := fun t : Lexeme => t.kind ≠ .closeDoc)
      (x := closing) (by simpa using hinside) (by simp [hclose]) trail
    have hend : expectEnd trail = .ok () := expectEnd_eq_ok.mpr htrail
    unfold parse
    simp only [hs, hlead₁, hlead₂, hopen, if_true, hinside₁, hinside₂, List.head?_cons,
      Option.map_some, Option.getD_some, List.tail_cons, hlines, ok_bind, hclose, hend, hindent,
      honeLine]
    rfl

end Comment

end Docblock
