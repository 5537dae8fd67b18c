import Docblock.Proofs.Comment.Content
import Docblock.Proofs.Source.Closing

/-!
# The braces of a comment

Where an expression inside a string of a file ends is found by counting braces, and those of the
comments within it are counted too.  So a comment may only take the place of another that has the
same braces in the same order.  Printing keeps them: all that is ever left out are commas,
parentheses and the sign of an alias, and all that is put in are blanks and markers.

1. `Text.braces`, and what has none.
2. `braces_of_restates`: one row.
3. `braces_body`, `braces_formatComment`: a whole comment.
-/

namespace Docblock

open Text (Blanks despace)
open Word (dense)

/-! ## Section 1: Braces -/

namespace Text

/-- Is a character a brace? -/
def isBrace (c : Char) : Bool :=
  c == '\x7b' || c == '\x7d'

/-- The braces of a text, in order. -/
def braces (s : Text) : Text :=
  s.filter isBrace

@[simp] theorem braces_nil : braces [] = [] := rfl

@[simp] theorem braces_append (s t : Text) : braces (s ++ t) = braces s ++ braces t :=
  List.filter_append s t

@[simp] theorem braces_flatMap {α : Type} (f : α → Text) (xs : List α) :
    braces (xs.flatMap f) = xs.flatMap fun x => braces (f x) := by
  induction xs with
  | nil => rfl
  | cons x xs ih => simp [ih]

theorem braces_flatten (xs : List Text) : braces xs.flatten = xs.flatMap braces := by
  rw [List.flatten_eq_flatMap, braces_flatMap]
  rfl

/-- Blanks have no braces. -/
theorem Blanks.braces {b : Text} (h : Blanks b) : braces b = [] := by
  apply List.filter_eq_nil_iff.mpr
  intro c hc hbrace
  have hblank := h c hc
  simp only [isBrace, Bool.or_eq_true, beq_iff_eq] at hbrace
  rcases hbrace with rfl | rfl
  · cases hblank
  · cases hblank

/-- No brace is white space. -/
@[simp] theorem braces_despace (s : Text) : braces (despace s) = braces s := by
  unfold braces despace
  rw [List.filter_filter]
  apply List.filter_congr
  intro c _
  -- a brace is no white space, so it is kept either way
  by_cases hbrace : isBrace c = true
  · have hspace : isSpace c = false := by
      simp only [isBrace, Bool.or_eq_true, beq_iff_eq] at hbrace
      rcases hbrace with rfl | rfl
      · decide
      · decide
    simp [hspace]
  · simp [hbrace]

end Text

open Text (braces)

/-- A symbol that is no brace has none. -/
theorem braces_of_symbol {k : Kind} {t x : Text} (h : Token.Forms k t) (hk : k.symbol? = some x)
    (hx : braces x = []) : braces t = [] := by
  rw [Token.eq_of_forms_symbol h hk]
  exact hx

theorem newline_of_forms {t : Text} (h : Token.Forms .newline t) : t = ['\n'] := by
  cases Token.shape_of_forms h with
  | symbol h' => cases h'
  | newline => rfl

/-! ## Section 2: One row -/

/-- Condensing leaves out commas and parentheses, which are no braces. -/
theorem Condensed.braces_eq {a b : List (Kind × Text)} (h : Condensed a b)
    (ha : ∀ x ∈ a, Token.Forms x.1 x.2) : braces (dense b) = braces (dense a) := by
  -- induction on what is kept and what is left out
  induction h with
  | nil => rfl
  | keep x h ih =>
    simp [ih (List.forall_mem_cons.mp ha).2]
  | @comma m x a b hm hx h ih =>
    obtain ⟨hcomma, ha⟩ := List.forall_mem_cons.mp ha
    rw [hm] at hcomma
    rw [ih ha, Word.dense_cons m, Text.braces_append, Text.braces_despace,
      braces_of_symbol hcomma rfl (by decide), List.nil_append]
  | @parens w l r a b hw hl hr hresult h ih =>
    obtain ⟨-, ha⟩ := List.forall_mem_cons.mp ha
    obtain ⟨hleft, ha⟩ := List.forall_mem_cons.mp ha
    obtain ⟨hright, ha⟩ := List.forall_mem_cons.mp ha
    rw [hl] at hleft
    rw [hr] at hright
    simp [ih ha, braces_of_symbol hleft rfl (by decide), braces_of_symbol hright rfl (by decide)]

/-- Editing the fields of a tag keeps the braces: what it changes besides is a word or an equals
sign. -/
theorem Tag.Edited.braces_eq {keyword : Keyword} {a b : List (Kind × Text)}
    (h : Tag.Edited keyword a b) (ha : ∀ x ∈ a, Token.Forms x.1 x.2) :
    braces (dense b) = braces (dense a) := by
  cases h with
  | condensed h => exact h.braces_eq ha
  | bound n h =>
    obtain ⟨-, ha⟩ := List.forall_mem_cons.mp ha
    have htail := h.braces_eq (List.forall_mem_cons.mp ha).2
    have hof : braces "of".toList = [] := by decide
    have has : braces "as".toList = [] := by decide
    simp only [Word.dense_cons, Text.braces_append, Text.braces_despace, hof, has, htail]
  | @equals n e _ _ he h =>
    obtain ⟨-, ha⟩ := List.forall_mem_cons.mp ha
    obtain ⟨hequals, ha⟩ := List.forall_mem_cons.mp ha
    rw [he] at hequals
    simp [h.braces_eq ha, braces_of_symbol hequals rfl (by decide)]

/-- A row has the braces of the piece that it restates. -/
theorem braces_of_restates {piece : List (Kind × Text)} {l : Line} {r : Text}
    (h : Restates piece l r) (hpiece : ∀ x ∈ piece, Token.Forms x.1 x.2) :
    braces r = braces (dense piece) := by
  cases h with
  | verbatim h =>
    rw [← Text.braces_despace, h]
  | @edited tag keyword r fields new rest hkeyword hcut hdesc hfields hrow =>
    subst hcut
    obtain ⟨-, hforms⟩ := List.forall_mem_cons.mp hpiece
    have hedited := hfields.braces_eq fun x hx => hforms x (List.mem_append_left rest hx)
    rw [← Text.braces_despace, hrow]
    simp [hedited]

/-! ## Section 3: A whole comment -/

namespace Lexeme

theorem forms_of_mem_ofText {s : Text} {t : Lexeme} (ht : t ∈ ofText s) :
    Token.Forms t.kind t.text :=
  (genuine_ofText s t.word (List.mem_map_of_mem ht)).1

/-- The braces of some lexemes. -/
def bracesOf (ts : List Lexeme) : Text :=
  ts.flatMap fun t => braces t.text

@[simp] theorem bracesOf_nil : bracesOf [] = [] := rfl

@[simp] theorem bracesOf_cons (t : Lexeme) (ts : List Lexeme) :
    bracesOf (t :: ts) = braces t.text ++ bracesOf ts := rfl

@[simp] theorem bracesOf_append (ts us : List Lexeme) :
    bracesOf (ts ++ us) = bracesOf ts ++ bracesOf us := by
  simp [bracesOf]

theorem bracesOf_eq_dense (ts : List Lexeme) :
    bracesOf ts = braces (dense ((words ts).map Word.core)) := by
  induction ts with
  | nil => rfl
  | cons t ts ih =>
    rw [bracesOf_cons, ih]
    simp [Word.core]

/-- Line breaks have no braces. -/
theorem bracesOf_newlines {ts : List Lexeme} (hforms : ∀ t ∈ ts, Token.Forms t.kind t.text)
    (hts : ∀ t ∈ ts, t.kind = .newline) : bracesOf ts = [] := by
  induction ts with
  | nil => rfl
  | cons t ts ih =>
    obtain ⟨ht, hforms⟩ := List.forall_mem_cons.mp hforms
    obtain ⟨hk, hts⟩ := List.forall_mem_cons.mp hts
    rw [hk] at ht
    rw [bracesOf_cons, ih hforms hts, newline_of_forms ht]
    rfl

/-- The blanks between the tokens of a text have no braces. -/
theorem bracesOf_ofText (s : Text) : bracesOf (ofText s) = braces s := by
  obtain ⟨tail, hs, hstands, htail⟩ := Word.exists_scan s
  rw [bracesOf_eq_dense]
  have hblanks : ∀ w ∈ words (ofText s), Blanks w.gap := fun w hw => (hstands.sound w hw).blank
  rw [← Word.despace_source hblanks, Text.braces_despace]
  conv_rhs => rw [hs, Text.braces_append, Blanks.braces htail, List.append_nil]
  rfl

end Lexeme

open Lexeme (bracesOf words)

namespace SourceLine

variable (stop : Token) {ts : List Lexeme}

/-- Cutting into lines leaves the braces where they are. -/
theorem bracesOf_split (hts : ∀ t ∈ ts, Token.Forms t.kind t.text) :
    ((split stop ts).1 :: (split stop ts).2).flatMap (fun l => bracesOf l.words) = bracesOf ts := by
  induction ts with
  | nil => rfl
  | cons t ts ih =>
    obtain ⟨ht, hts⟩ := List.forall_mem_cons.mp hts
    rw [Lexeme.bracesOf_cons, ← ih hts]
    by_cases hk : t.kind = .newline
    · rw [hk] at ht
      have hbreak : Text.braces t.text = [] := by
        rw [newline_of_forms ht]
        rfl
      simp [split, hk, hbreak]
    · simp [split, hk]

/-- A last line without words has none. -/
theorem bracesOf_dropBlankEnd (lines : List SourceLine) :
    (dropBlankEnd lines).flatMap (fun l => bracesOf l.words) =
      lines.flatMap (fun l => bracesOf l.words) := by
  fun_induction dropBlankEnd lines with
  | case1 => rfl
  | case2 line h =>
    have hnil : line.words = [] := by simpa using h
    simp [hnil]
  | case3 line h => rfl
  | case4 line rest h ih => rw [List.flatMap_cons, List.flatMap_cons, ih]

/-- What is left out of the lines of a comment has no braces. -/
theorem bracesOf_content (hts : ∀ t ∈ ts, Token.Forms t.kind t.text) :
    (content stop ts).2.flatMap (fun l => bracesOf l.words) = bracesOf ts := by
  -- a first line without words is left out, and it has no braces
  have hsplit := bracesOf_split stop hts
  unfold content
  split
  · next heq =>
    rw [heq] at hsplit
    rw [bracesOf_dropBlankEnd, ← hsplit]
    rfl
  · next heq =>
    rw [heq] at hsplit
    rw [bracesOf_dropBlankEnd, ← hsplit]

end SourceLine

/-- The marker in front of a line is no brace. -/
theorem bracesOf_dropMarker {ts : List Lexeme} (hts : ∀ t ∈ ts, Token.Forms t.kind t.text) :
    bracesOf (Line.dropMarker ts) = bracesOf ts := by
  unfold Line.dropMarker
  split
  · next t rest =>
    split
    · next hk =>
      have ht := (List.forall_mem_cons.mp hts).1
      rw [hk] at ht
      rw [Lexeme.bracesOf_cons, braces_of_symbol ht rfl (by decide), List.nil_append]
    · rfl
  · rfl

/-- The row of a line has the braces of the line. -/
theorem braces_of_row {line : SourceLine} {l : Line} {r : Text} (hline : OnLine line.words)
    (hread : Line.read line = .ok l) (hrow : l.PrintsAs r) : braces r = bracesOf line.words := by
  have hforms {ts : List Lexeme} (hts : OnLine ts) : ∀ t ∈ ts, Token.Forms t.kind t.text :=
    fun t ht => (hts.stands.sound t.word (List.mem_map_of_mem ht)).forms
  -- the row restates the line without its marker
  have hrestates := restates_row hline.dropMarker (Line.read_eq_ok_iff.mp hread) hrow
  rw [← bracesOf_dropMarker (hforms hline), Lexeme.bracesOf_eq_dense]
  apply braces_of_restates hrestates
  intro x hx
  obtain ⟨w, hw, rfl⟩ := List.mem_map.mp hx
  obtain ⟨t, ht, rfl⟩ := List.mem_map.mp hw
  exact hforms hline.dropMarker t ht

namespace Comment

/-- The rows of a comment have the braces of its text. -/
theorem braces_body {s : Text} {c : Comment} (h : parse s = .ok c) :
    c.body.flatMap braces = braces s := by
  obtain ⟨lead, opening, ts, closing, trail, hs, hlead, hopen, hts, hclose, htrail, hlines, -, -⟩ :=
    parse_eq_ok_iff.mp h
  have hforms : ∀ t ∈ lead ++ opening :: (ts ++ closing :: trail), Token.Forms t.kind t.text := by
    rw [← hs]
    exact fun t ht => Lexeme.forms_of_mem_ofText ht
  -- the delimiters and the line breaks around them have no braces
  have htext : braces s = bracesOf ts := by
    have hopening : Token.Forms .openDoc opening.text := by
      rw [← hopen]
      exact hforms opening (by simp)
    have hclosing : Token.Forms .closeDoc closing.text := by
      rw [← hclose]
      exact hforms closing (by simp)
    rw [← Lexeme.bracesOf_ofText, hs]
    simp only [Lexeme.bracesOf_append, Lexeme.bracesOf_cons,
      Lexeme.bracesOf_newlines (fun t ht => hforms t (by simp [ht])) hlead,
      Lexeme.bracesOf_newlines (fun t ht => hforms t (by simp [ht])) htrail,
      braces_of_symbol hopening rfl (by decide), braces_of_symbol hclosing rfl (by decide),
      List.nil_append, List.append_nil]
  rw [htext, ← SourceLine.bracesOf_content closing.toToken fun t ht =>
    hforms t (by simp [ht])]
  have honline : ∀ line ∈ (SourceLine.content closing.toToken ts).2, OnLine line.words :=
    fun line hline => onLine_of_mem_content hs hts hline
  have hread := Line.readAll_eq_ok_iff.mp hlines
  have hrows := c.printsAs_body
  clear hs hts hlines htext hforms
  generalize (SourceLine.content closing.toToken ts).2 = sources at hread honline
  generalize c.lines = lines at hread hrows
  generalize c.body = rows at hrows
  -- line by line, each with its row
  induction hread generalizing rows with
  | nil =>
    cases hrows
    rfl
  | @cons line l sources lines hline hsources ih =>
    cases hrows with
    | @cons _ r _ rows hrow hrows =>
      obtain ⟨hfirst, honline⟩ := List.forall_mem_cons.mp honline
      rw [List.flatMap_cons, List.flatMap_cons, ih honline rows hrows, braces_of_row hfirst hline hrow]

end Comment

/-- A comment that takes the place of another has the same braces. -/
theorem Source.braces_formatComment {indent s out : Text} (hindent : Blanks indent)
    (h : Source.formatComment indent s = .ok out) : braces out = braces s := by
  have hsetOff (r : Text) : braces (Comment.setOff r) = braces r := by
    unfold Comment.setOff
    -- on one line, or one line per row with the indent and the marker in front
    split
    · next hnil =>
      have hnil : r = [] := by simpa using hnil
      rw [hnil]
    · rfl
  have hopening : braces "/**".toList = [] := by decide
  have hmarker : braces " *".toList = [] := by decide
  have hclosing : braces "*/".toList = [] := by decide
  have hblank : braces [' '] = [] := by decide
  have hbreak : braces ['\n'] = [] := by decide
  obtain ⟨c, hparse, rfl⟩ := Source.formatComment_eq_ok h
  rw [← Comment.braces_body hparse]
  unfold Source.layout
  split
  · simp only [Source.Tidy.text, List.flatMap_nil, List.nil_append, Text.braces_append, hopening,
      hsetOff, hclosing, hblank, List.append_nil]
    exact Text.braces_flatten c.body
  · simp only [Source.Tidy.text, List.flatMap_cons, List.flatMap_map, Text.braces_append,
      Text.braces_flatMap, hopening, hmarker, hclosing, hblank, hbreak, hsetOff, hindent.braces,
      List.nil_append, List.append_nil]

end Docblock
