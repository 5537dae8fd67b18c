import Docblock.Proofs.Comment.Prose
import Docblock.Proofs.Comment.Rows
import Docblock.Proofs.SideBySide

/-!
# The pieces of a row

What is printed for a line is free text, or a first piece with other pieces spread after it.  Every
piece is a fragment of the line it was read from: a slice of its text, or words of types that were
written out anew.

- `exists_row_unstructured`, `exists_row_structured`: the row of a tag.
- `fragments_of_row`: what can be said of all rows.
-/

namespace Docblock

open Lexeme (words)
open Row (Padded Spread Solid)
open Text (Blanks EndsOff Plain)
open Word (source Stands)

variable {r : Text}

/-! ## Section 1: The row of a line -/

/-- The line of text that is printed for a line of a comment; how far its cells are padded depends
on the lines around it. -/
def Line.PrintsAs (l : Line) (r : Text) : Prop :=
  ∃ laid, Padded l.row.cells laid ∧ r = Text.trimLine (laid ++ l.row.tail)

/-- Every row of a comment is the print of its line. -/
theorem Comment.printsAs_body (c : Comment) : List.Forall₂ Line.PrintsAs c.lines c.body := by
  -- the cells are padded, so every line is one laid out row
  have hpad : 0 < Comment.padding := by decide
  have h := Row.align_padded hpad (c.lines.map Line.row)
  rw [List.forall₂_map_left_iff] at h
  unfold Comment.body
  rw [List.forall₂_map_right_iff]
  refine h.imp ?_
  rintro l line ⟨laid, hlaid, rfl⟩
  exact ⟨laid, hlaid, rfl⟩

/-! ## Section 2: The rows of tags -/

theorem tag_of_forms {t : Text} (h : Token.Forms .tag t) :
    t = '@' :: t.tail ∧ t.tail ≠ [] ∧ ∀ c ∈ t.tail, Token.isTagPart c = true := by
  cases Token.shape_of_forms h with
  | symbol h' => cases h'
  | tag h' => exact ⟨rfl, by simp, h'⟩

/-- No word of a type ends with a blank. -/
theorem endsOff_of_isTypeWord {k : Kind} {t : Text} (h : Token.Forms k t)
    (hk : k.isTypeWord = true) : EndsOff Text.isBlank t := by
  have hall (hsolid : ∀ c ∈ t, Text.isBlank c = false) : EndsOff Text.isBlank t :=
    fun c hc => hsolid c (List.mem_of_mem_getLast? hc)
  -- one case per shape; strings end with their quote, the others have no blank at all
  cases Token.shape_of_forms h with
  | symbol h' => exact hall fun c hc => ((Token.symbol_solid h').2 c hc).1
  | ident h' => exact hall fun c hc => (Token.solid_of_isIdentPart (h' c hc)).1
  | int h' =>
    exact hall fun c hc => (Token.solid_of_isIdentPart (Token.isIdentPart_of_isDigit (h' c hc))).1
  | var h' =>
    refine hall (List.forall_mem_cons.mpr ⟨rfl, fun c hc => ?_⟩)
    exact (Token.solid_of_isIdentPart (Token.isIdentPart_of_isVarPart (h' c hc))).1
  | str h' =>
    rw [Text.endsOff_append (by simp)]
    intro c hc
    obtain rfl : '\'' = c := by simpa using hc
    rfl
  | newline | blank | tag | other => cases hk

/-- A typed field is not empty and does not end with a blank: its last word does not. -/
theorem Tag.PieceOf.solid {ws : List Word} {p : Text} (h : Tag.PieceOf ws p) : Solid p := by
  obtain ⟨old, vs, hwritten, hne, -⟩ := h
  have hstands : Stands vs none := hwritten.phrase none (by simp)
  rw [← hwritten.source]
  refine ⟨?_, ?_⟩
  · obtain ⟨v, vs, rfl⟩ := List.exists_cons_of_ne_nil hne
    exact Word.source_ne_nil hstands
  · -- the field ends as its last word does
    obtain ⟨init, w, rfl⟩ : ∃ init w, vs = init ++ [w] :=
      ⟨vs.dropLast, vs.getLast hne, (List.dropLast_append_getLast hne).symm⟩
    have hword := genuine_of_stands hstands w (by simp)
    have hend := endsOff_of_isTypeWord hword.1 (hwritten.typed w (by simp))
    rw [Word.source_append, Word.source_cons, Word.source_nil, List.append_nil, ← List.append_assoc,
      Text.endsOff_append (Token.forms_ne_nil hword.1)]
    exact hend

/-- The description in a row, if there is one. -/
theorem spread_desc {d y : Text} (h : Spread ([d].filter (!·.isEmpty)) y) :
    (d = [] ∧ y = []) ∨ ∃ b, Blanks b ∧ b ≠ [] ∧ d ≠ [] ∧ y = b ++ d := by
  cases d with
  -- an empty description is left out
  | nil =>
    cases h
    exact .inl ⟨rfl, rfl⟩
  | cons c d =>
    cases h with
    | @cons _ b _ _ hb hne h =>
      cases h
      exact .inr ⟨b, hb, hne, by simp, by simp⟩

/-- Fields with the description after them, if there is one. -/
theorem spread_fields_desc {ps : List Text} {d z : Text}
    (h : Spread (ps ++ [d].filter (!·.isEmpty)) z) :
    ∃ y b, z = y ++ (b ++ d) ∧ Spread ps y ∧ Blanks b ∧ (d ≠ [] → b ≠ []) := by
  obtain ⟨y, x, rfl, hy, hx⟩ := Row.spread_append_iff.mp h
  rcases spread_desc hx with ⟨rfl, rfl⟩ | ⟨b, hb, hne, -, rfl⟩
  · exact ⟨y, [], by simp, hy, by simp [Blanks], by simp⟩
  · exact ⟨y, b, rfl, hy, hb, fun _ => hne⟩

theorem solid_desc {d : Text} (hd : Text.Trimmed d) : ∀ p ∈ [d].filter (!·.isEmpty), Solid p := by
  intro p hp
  obtain ⟨hp, hne⟩ := List.mem_filter.mp hp
  obtain rfl : p = d := by simpa using hp
  exact ⟨by simpa using hne, Text.endsOff_isBlank hd.back⟩

/-- The name of a tag without a structure has no blanks in it. -/
theorem isBlank_cut {t x : Text} (ht : Token.Forms .tag t) :
    ∀ c ∈ t ++ x.takeWhile (!Tag.endsName ·), Text.isBlank c = false := by
  intro c hc
  -- the token of the tag, and what is glued to it
  rcases List.mem_append.mp hc with hc | hc
  · obtain ⟨htext, -, htagpart⟩ := tag_of_forms ht
    rw [htext] at hc
    rcases List.mem_cons.mp hc with rfl | hc
    · rfl
    · exact (Token.solid_of_isIdentPart (Token.isIdentPart_of_isTagPart (htagpart c hc))).1
  · have hends : Tag.endsName c = false := by simpa using List.mem_takeWhile_imp hc
    rw [Tag.endsName, Bool.or_eq_false_iff] at hends
    exact hends.1

/-- The row of a tag without a structure. -/
theorem exists_row_unstructured {t x : Text} (ht : Token.Forms .tag t)
    (hrow : (Line.tag (Tag.cut t.tail x)).PrintsAs r) :
    ∃ y, r = t ++ x.takeWhile (!Tag.endsName ·) ++ y ∧
      Spread ([Text.trim (x.dropWhile (!Tag.endsName ·))].filter (!·.isEmpty)) y := by
  obtain ⟨laid, hlaid, rfl⟩ := hrow
  -- the name of the tag is its first and only cell
  have hname : (Tag.cut t.tail x).name = t ++ x.takeWhile (!Tag.endsName ·) := by
    conv_rhs => rw [(tag_of_forms ht).1]
    rfl
  have htail : (Line.tag (Tag.cut t.tail x)).row.tail =
      List.intercalate [' '] ([Text.trim (x.dropWhile (!Tag.endsName ·))].filter (!·.isEmpty)) :=
    (Row.joinTail_singleton _).symm
  have hcells : (Line.tag (Tag.cut t.tail x)).row.cells = [(Tag.cut t.tail x).name] := rfl
  rw [hcells, hname] at hlaid
  rw [htail]
  exact Row.exists_spread hlaid (fun c hc => isBlank_cut ht c (List.mem_of_mem_getLast? hc))
    (by simp) (solid_desc (Text.trimmed_trim _))

/-- The row of a tag with a structure: its fields, then the description. -/
theorem exists_row_structured {depth : Nat} {keyword : Keyword} {mk : Text → Tag} {ws : List Word}
    {stop stop' : List Word → Prop} {cells parts : List Text}
    (hre : Tag.Reprinted depth keyword mk ws stop cells parts stop') {desc : Text}
    (hdesc : Text.Trimmed desc) (hrow : (Line.tag (mk desc)).PrintsAs r) :
    ∃ z, r = '@' :: keyword.text ++ z ∧
      Spread (cells ++ parts ++ [desc].filter (!·.isEmpty)) z := by
  obtain ⟨laid, hlaid, rfl⟩ := hrow
  have hpieces : ∀ p ∈ cells ++ parts, Solid p := fun p hp => (hre.pieces p hp).solid
  -- only the description may be empty
  have hfilter : (parts ++ [desc]).filter (!·.isEmpty) = parts ++ [desc].filter (!·.isEmpty) := by
    rw [List.filter_append, List.filter_eq_self.mpr]
    intro p hp
    simpa using (hpieces p (List.mem_append_right cells hp)).1
  -- no keyword ends with a blank, so the fields are set off from it
  have hkeyword : EndsOff Text.isBlank ('@' :: keyword.text) := by
    have : ('@' :: keyword.text).getLast?.all (!Text.isBlank ·) = true := by
      rcases keyword with _ | k | a | _ | _ | _ | _
      case typed => cases k <;> decide
      case property => cases a <;> decide
      all_goals decide
    intro c hc
    simpa using (Option.all_eq_true _ _).mp this c hc
  rw [show (Line.tag (mk desc)).row = _ from hre.row desc] at hlaid ⊢
  rw [Row.joinTail, hfilter, List.append_assoc cells]
  refine Row.exists_spread hlaid hkeyword (fun p hp => hpieces p (List.mem_append_left parts hp)) ?_
  exact List.forall_mem_append.mpr
    ⟨fun p hp => hpieces p (List.mem_append_right cells hp), solid_desc hdesc⟩

/-! ## Section 3: Fragments of a line -/

/-- A part of the line `ts` that is printed: a slice of what is left of the line at some point, or
words of types that were passed before. -/
inductive Fragment (ts : List Lexeme) (p : Text) : Prop where
  | slice {ws : List Word} {rest : List Lexeme} (hpass : Passes ts ws rest)
      (hp : p <:+: Lexeme.source rest)
  | typed {ws : List Word} {rest : List Lexeme} (hpass : Passes ts ws rest) (hp : Tag.PieceOf ws p)

theorem Text.trim_infix (s : Text) : Text.trim s <:+: s := by
  obtain ⟨a, e, hs, -, -⟩ := Text.exists_trim s
  exact ⟨a, e, by rw [List.append_assoc, ← hs]⟩

theorem source_cons_lexeme (t : Lexeme) (ts : List Lexeme) :
    Lexeme.source (t :: ts) = t.gap ++ (t.text ++ Lexeme.source ts) := by
  simp [Lexeme.source]

/-- Every row consists of fragments of the line that was read, set apart by blanks. -/
theorem fragments_of_row {ts : List Lexeme} {l : Line} (hts : OnLine ts) (hread : ReadsAs ts l)
    (hrow : l.PrintsAs r) :
    ∃ first ps y, r = first ++ y ∧ Spread ps y ∧ ∀ p ∈ first :: ps, Fragment ts p := by
  cases hread with
  -- the row of free text is the trimmed line
  | text hfirst =>
    have hd : Text.Trimmed (restOfLine ts) := Text.trimmed_trim _
    obtain ⟨laid, hlaid, rfl⟩ := hrow
    cases hlaid
    refine ⟨restOfLine ts, [], [], ?_, .nil, ?_⟩
    · rw [List.append_nil]
      exact Text.trimLine_eq_self (Text.endsOff_isBlank hd.back)
    · intro p hp
      obtain rfl := List.mem_singleton.mp hp
      exact .slice (.done ts) (Text.trim_infix _)
  | @tag t rest tag ht h =>
    have hforms : Token.Forms .tag t.text := by
      have := hts.stands.1.forms
      rwa [Lexeme.word_kind, ht] at this
    -- a tag is its name and its text, with fields between them if it has a structure
    rcases Tag.read_eq_ok hts.tail.stands h with ⟨-, rfl⟩ | ⟨keyword, hkeyword, h⟩
    · obtain ⟨y, hr, hy⟩ := exists_row_unstructured hforms hrow
      -- the name with what is glued to it, and the text behind
      refine ⟨_, _, y, hr, hy, List.forall_mem_cons.mpr ⟨?_, ?_⟩⟩
      · refine .slice (.done _) ?_
        rw [source_cons_lexeme]
        exact ((List.prefix_append_right_inj _).mpr (List.takeWhile_prefix _)).isInfix.trans
          (List.suffix_append _ _).isInfix
      · intro p hp
        obtain ⟨hp, -⟩ := List.mem_filter.mp hp
        obtain rfl := List.mem_singleton.mp hp
        refine .slice (.step t (.done rest)) ?_
        exact (Text.trim_infix _).trans (List.dropWhile_suffix _).isInfix
    · -- the keyword, the typed fields in between, and the description
      obtain ⟨mk, ws, stop, rest', hpass, hfields, -, rfl⟩ := Tag.sound_readStructured h
      have hgenuine := (hpass.genuine (genuine_of_stands hts.tail.stands)).1
      obtain ⟨cells, parts, stop', hre⟩ := Tag.respell_fields hfields hgenuine
      obtain ⟨z, hr, hz⟩ := exists_row_structured hre (Text.trimmed_trim _) hrow
      have htext : '@' :: keyword.text = t.text := by
        rw [Keyword.text_of_ofText? hkeyword]
        exact (tag_of_forms hforms).1.symm
      refine ⟨_, _, z, hr, hz, List.forall_mem_cons.mpr ⟨?_, List.forall_mem_append.mpr ⟨?_, ?_⟩⟩⟩
      · refine .slice (.done _) ?_
        rw [htext, source_cons_lexeme]
        exact (List.prefix_append _ _).isInfix.trans (List.suffix_append _ _).isInfix
      · intro p hp
        exact .typed (.step t hpass) ((hre.pieces p hp).mono (List.subset_cons_self _ _))
      · intro p hp
        obtain ⟨hp, -⟩ := List.mem_filter.mp hp
        obtain rfl := List.mem_singleton.mp hp
        exact .slice (.step t hpass) (Text.trim_infix _)

/-! ## Section 4: No line break in a row -/

theorem Tag.PieceOf.not_mem_newline {ws : List Word} {p : Text} (h : Tag.PieceOf ws p) :
    '\n' ∉ p := by
  obtain ⟨old, vs, hwritten, -, -⟩ := h
  have hstands : Stands vs none := hwritten.phrase none (by simp)
  intro hmem
  rw [← hwritten.source] at hmem
  rcases mem_source hstands hmem with hblank | ⟨w, hw, hmem⟩
  · cases hblank
  · refine Token.not_mem_newline_of_forms (genuine_of_stands hstands w hw).1 ?_ hmem
    intro hk
    have := hwritten.typed w hw
    rw [hk] at this
    cases this

theorem Row.Spread.mem {ps : List Text} {y : Text} (h : Spread ps y) {c : Char} (hc : c ∈ y) :
    Text.isBlank c = true ∨ ∃ p ∈ ps, c ∈ p := by
  induction h with
  | nil => cases hc
  | @cons p b y ps hb _ _ ih =>
    rw [List.mem_append, List.mem_append] at hc
    -- among the blanks, in the first part, or further on
    rcases hc with hc | hc | hc
    · exact .inl (hb c hc)
    · exact .inr ⟨p, List.mem_cons_self, hc⟩
    · exact (ih hc).imp_right fun ⟨q, hq, hmem⟩ => ⟨q, List.mem_cons_of_mem p hq, hmem⟩

theorem not_mem_newline_of_row {ts : List Lexeme} {l : Line} (hts : OnLine ts)
    (hread : ReadsAs ts l) (hrow : l.PrintsAs r) : '\n' ∉ r := by
  obtain ⟨first, ps, y, rfl, hy, hfragments⟩ := fragments_of_row hts hread hrow
  have hno : ∀ p ∈ first :: ps, '\n' ∉ p := by
    intro p hp hmem
    cases hfragments p hp with
    | slice hpass hp => exact (hts.passes hpass).not_mem_newline (hp.subset hmem)
    | typed hpass hp => exact hp.not_mem_newline hmem
  intro hmem
  -- the first part, and what is spread behind it
  rcases List.mem_append.mp hmem with hmem | hmem
  · exact hno first List.mem_cons_self hmem
  · rcases hy.mem hmem with hblank | ⟨p, hp, hmem⟩
    · cases hblank
    · exact hno p (List.mem_cons_of_mem first hp) hmem

namespace Comment

/-! ## Section 5: The lines of a comment that was read -/

theorem blanks_of_mem_ofText {s : Text} {t : Lexeme} (ht : t ∈ Lexeme.ofText s) : Blanks t.gap := by
  obtain ⟨tail, -, hstands, -⟩ := Word.exists_scan s
  rw [← Word.words_ofText] at hstands
  exact (hstands.sound _ (List.mem_map_of_mem ht)).blank

theorem blanks_lastGap {ts : List Lexeme} (h : ∀ t ∈ ts, Blanks t.gap) : Blanks (lastGap ts) := by
  unfold lastGap
  cases hlast : ((ts.map (·.gap)).filter (!·.isEmpty)).getLast? with
  | none => simp [Blanks]
  -- the last gap is the gap of one of the lexemes
  | some g =>
    have hmem := List.mem_of_getLast? hlast
    obtain ⟨hmem, -⟩ := List.mem_filter.mp hmem
    obtain ⟨t, ht, rfl⟩ := List.mem_map.mp hmem
    exact h t ht

/-- Lexemes that make up a part of a text stand one after another. -/
theorem stands_of_part {s : Text} {ts : List Lexeme} (h : ts <:+: Lexeme.ofText s) :
    Stands (words ts) none := by
  obtain ⟨a, b, hab⟩ := h
  obtain ⟨tail, -, hstands, -⟩ := Word.exists_scan s
  rw [← Word.words_ofText, ← hab, Lexeme.words_append, Lexeme.words_append] at hstands
  have := (Word.stands_append.mp (Word.stands_append.mp hstands).1).2
  exact this.of_last (by simp)

theorem plain_of_part {s : Text} (hs : Plain s) {ts : List Lexeme} (h : ts <:+: Lexeme.ofText s) :
    ∀ t ∈ ts, Plain t.text := by
  obtain ⟨tail, heq, -, -⟩ := Word.exists_scan s
  intro t ht c hc
  apply hs
  rw [heq, List.mem_append, ← Word.words_ofText]
  left
  have hmem : t.word ∈ words (Lexeme.ofText s) := List.mem_map_of_mem (h.subset ht)
  obtain ⟨a, b, hab⟩ := List.append_of_mem hmem
  rw [hab]
  simp [hc]

theorem dropMarker_suffix (ts : List Lexeme) : Line.dropMarker ts <:+ ts := by
  unfold Line.dropMarker
  split
  · split
    · exact List.suffix_cons _ _
    · exact List.suffix_rfl
  · exact List.suffix_rfl

/-- The lines between the delimiters of a text. -/
theorem onLine_of_mem_content {s : Text} {lead inside trail : List Lexeme} {opening closing : Lexeme}
    (hs : Lexeme.ofText s = lead ++ opening :: (inside ++ closing :: trail))
    (hinside : ∀ t ∈ inside, t.kind ≠ .closeDoc) {stop : Token} {line : SourceLine}
    (hline : line ∈ (SourceLine.content stop inside).2) : OnLine line.words := by
  obtain ⟨hpart, hbreak⟩ := SourceLine.infix_of_mem_content hline
  have hwhole : line.words <:+: Lexeme.ofText s := by
    rw [hs]
    exact hpart.trans ⟨lead ++ [opening], closing :: trail, by simp⟩
  exact ⟨stands_of_part hwhole, fun t ht => ⟨hbreak t ht, hinside t (hpart.subset ht)⟩⟩

/-- Every line of a comment was read from lexemes on one line of its text, before the closing
delimiter. -/
theorem exists_lexemes_of_mem {s : Text} {c : Comment} (h : parse s = .ok c) :
    ∀ l ∈ c.lines, ∃ a ts b, a ++ ts ++ b = Lexeme.ofText s ∧ b ≠ [] ∧ OnLine ts ∧ ReadsAs ts l := by
  obtain ⟨lead, opening, inside, closing, trail, hs, -, -, hinside, -, -, hlines, -, -⟩ :=
    parse_eq_ok_iff.mp h
  intro l hl
  obtain ⟨line, hline, hread⟩ := exists_of_forall₂_right (Line.readAll_eq_ok_iff.mp hlines) hl
  -- the line is a part of what stands inside
  obtain ⟨hpart, -⟩ := SourceLine.infix_of_mem_content hline
  obtain ⟨a, b, hab⟩ := (dropMarker_suffix line.words).isInfix.trans hpart
  refine ⟨lead ++ opening :: a, Line.dropMarker line.words, b ++ closing :: trail, ?_, by simp,
    (onLine_of_mem_content hs hinside hline).dropMarker, Line.read_eq_ok_iff.mp hread⟩
  rw [hs, ← hab]
  simp

theorem blanks_indent {s : Text} {c : Comment} (h : parse s = .ok c) : Blanks c.indent := by
  obtain ⟨lead, opening, inside, closing, trail, hs, -, -, -, -, -, -, hindent, -⟩ :=
    parse_eq_ok_iff.mp h
  rw [hindent]
  refine blanks_lastGap fun t ht => blanks_of_mem_ofText (s := s) ?_
  rw [hs]
  -- a line break before the opening, or the opening itself
  rcases List.mem_append.mp ht with ht | ht
  · exact List.mem_append_left _ ht
  · obtain rfl := List.mem_singleton.mp ht
    simp

/-- No row of a comment that was read has a line break in it. -/
theorem not_mem_newline_body {s : Text} {c : Comment} (h : parse s = .ok c) :
    ∀ r ∈ c.body, '\n' ∉ r := by
  intro r hr
  obtain ⟨l, hl, hrow⟩ := exists_of_forall₂_right c.printsAs_body hr
  obtain ⟨-, ts, -, -, -, hts, hread⟩ := exists_lexemes_of_mem h l hl
  exact not_mem_newline_of_row hts hread hrow

end Comment

end Docblock
