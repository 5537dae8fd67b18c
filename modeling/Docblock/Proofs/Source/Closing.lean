import Docblock.Proofs.Comment.Pieces
import Docblock.Source.Format
import Mathlib

/-!
# A formatted comment closes at its end

A comment takes the place of another in a file, so a delimiter `*/` that came to stand inside it
would turn the rest of its text into code.  The printer puts pieces of the comment next to each
other that were not neighbours before; no two of them ever meet in a `*` and a `/`.

1. `NoClose`: texts without a delimiter, and when putting them together makes none.
2. `noClose_of_row`: the rows of a comment.
3. `formatComment_closed`: the layouts.
-/

namespace Docblock

open Lexeme (words)
open Row (Spread)
open Text (Blanks EndsOff)
open Word (source Stands)

/-! ## Section 1: Texts without a delimiter -/

namespace Text

variable {x y : Text}

/-- No `*` in the text has a `/` after it. -/
def NoClose (s : Text) : Prop :=
  s.IsChain fun a b => a = '*' → b ≠ '/'

instance (s : Text) : Decidable (NoClose s) :=
  inferInstanceAs (Decidable (s.IsChain fun a b => a = '*' → b ≠ '/'))

theorem NoClose.append (hx : NoClose x) (hy : NoClose y) (h : y.head? ≠ some '/') :
    NoClose (x ++ y) := by
  refine List.isChain_append.mpr ⟨hx, hy, ?_⟩
  rintro - - d hd - rfl
  exact h hd

theorem noClose_of_not_mem (h : '/' ∉ x) : NoClose x := by
  refine List.isChain_iff_forall_rel_of_append_cons_cons.mpr ?_
  rintro a b l₁ l₂ rfl - rfl
  simp at h

theorem Blanks.not_mem {b : Text} (hb : Blanks b) {c : Char} (hc : isBlank c = false) : c ∉ b := by
  intro hmem
  rw [hb c hmem] at hc
  cases hc

theorem Blanks.noClose {b : Text} (hb : Blanks b) : NoClose b :=
  noClose_of_not_mem (hb.not_mem rfl)

/-- A delimiter that has text after it is never seen from the end of a text. -/
theorem noClose_iff :
    NoClose x ↔ ∀ a b, x ++ ['/'] = a ++ "*/".toList ++ b → b = [] := by
  unfold NoClose
  rw [List.isChain_iff_forall_rel_of_append_cons_cons]
  constructor
  · -- a delimiter with text behind it would stand inside, against `h`
    intro h a b heq
    rcases List.eq_nil_or_concat b with rfl | ⟨b, c, rfl⟩
    · rfl
    · have hinj : x ++ ['/'] = (a ++ '*' :: '/' :: b) ++ [c] := by simpa using heq
      obtain ⟨hx, -⟩ := List.append_inj' hinj rfl
      exact absurd rfl (h hx rfl)
  · -- two neighbours `*` and `/` are a delimiter with the last slash behind them
    rintro h a b l₁ l₂ rfl rfl rfl
    have := h l₁ (l₂ ++ ['/']) (by simp)
    simp at this

end Text

open Text (NoClose)

/-- Pieces that are set apart by blanks. -/
theorem Row.Spread.noClose {ps : List Text} {y : Text} (h : Spread ps y)
    (hps : ∀ p ∈ ps, NoClose p) : NoClose y := by
  induction h with
  | nil => exact .nil
  | @cons p b y ps hb hne h ih =>
    obtain ⟨hp, hps⟩ := List.forall_mem_cons.mp hps
    -- no piece begins after a `*`, and none ends before a `/`
    have hpy : NoClose (p ++ y) := hp.append (ih hps) fun hd => nomatch h.head _ hd
    refine List.isChain_append.mpr ⟨hb.noClose, hpy, ?_⟩
    rintro c hc - - rfl
    cases hb _ (List.mem_of_mem_getLast? hc)

/-! ## Section 2: Rows -/

/-- Passing over lexemes keeps their text free of delimiters. -/
theorem Passes.noClose {ts rest : List Lexeme} {ws : List Word} (h : Passes ts ws rest)
    (hforms : ∀ t ∈ ts, Token.Forms t.kind t.text) (hts : NoClose (Lexeme.source ts)) :
    (∀ w ∈ ws, NoClose w.text) ∧ NoClose (Lexeme.source rest) := by
  induction h with
  | done => exact ⟨by simp, hts⟩
  | step t _ ih =>
    rw [source_cons_lexeme] at hts
    obtain ⟨hws, hrest⟩ := ih (List.forall_mem_cons.mp hforms).2 hts.right_of_append.right_of_append
    exact ⟨List.forall_mem_cons.mpr ⟨hts.right_of_append.left_of_append, hws⟩, hrest⟩
  | @drawUp ts rest ws t u ht _ ih =>
    obtain ⟨hformst, hformsu, hforms⟩ := by
      simpa only [List.forall_mem_cons] using hforms
    refine ih (List.forall_mem_cons.mpr ⟨hformst, List.forall_mem_cons.mpr ⟨hformsu, hforms⟩⟩) ?_
    -- what is drawn up comes to stand after the `&`
    have htext : t.text = ['&'] := by
      rw [ht] at hformst
      generalize t.text = s at hformst
      cases Token.shape_of_forms hformst with
      | symbol h => exact (Option.some.inj h).symm
    rw [source_cons_lexeme, source_cons_lexeme, ← List.append_assoc] at hts ⊢
    refine List.isChain_append.mpr ⟨hts.left_of_append, hts.right_of_append.right_of_append, ?_⟩
    intro c hc d _ hstar
    rw [htext, List.getLast?_append] at hc
    obtain rfl : '&' = c := by simpa using hc
    cases hstar

/-- No word of a type begins with a slash. -/
theorem head_ne_slash_of_isTypeWord {k : Kind} {t : Text} (h : Token.Forms k t)
    (hk : k.isTypeWord = true) : t.head? ≠ some '/' := by
  have hpart {c : Char} {r : Text} (hc : Token.isIdentPart c = true) :
      (c :: r).head? ≠ some '/' := by
    intro hd
    obtain rfl : c = '/' := by simpa using hd
    revert hc
    decide
  -- one case per shape; in most of them the first character is fixed
  cases Token.shape_of_forms h with
  | symbol h' =>
    have hsymbol : k.symbol?.bind (·.head?) ≠ some '/' := by
      clear h h'
      revert hk
      cases k <;> decide
    simpa [h'] using hsymbol
  | ident h' => exact hpart (h' _ List.mem_cons_self)
  | int h' => exact hpart (Token.isIdentPart_of_isDigit (h' _ List.mem_cons_self))
  | var | str => simp
  | newline | blank | tag | other => cases hk

/-- Words of a type, none of which has the delimiter, have none together: no slash follows an
asterisk. -/
theorem noClose_source {vs : List Word} {next : Option Char} (hstands : Stands vs next)
    (htyped : ∀ v ∈ vs, v.kind.isTypeWord = true) (htexts : ∀ v ∈ vs, NoClose v.text) :
    NoClose (source vs) ∧ (source vs).head? ≠ some '/' := by
  induction vs with
  | nil => exact ⟨.nil, by simp⟩
  | cons v vs ih =>
    obtain ⟨hv, -, hvs⟩ := hstands
    obtain ⟨hvtyped, hvstyped⟩ := List.forall_mem_cons.mp htyped
    obtain ⟨hvtext, hvstexts⟩ := List.forall_mem_cons.mp htexts
    obtain ⟨hrest, hnext⟩ := ih hvs hvstyped hvstexts
    have htext : (v.text ++ source vs).head? ≠ some '/' := by
      rw [List.head?_append_of_ne_nil _ (Token.forms_ne_nil hv.forms)]
      exact head_ne_slash_of_isTypeWord hv.forms hvtyped
    have hgap : Blanks v.gap := hv.blank
    rw [Word.source_cons]
    refine ⟨hgap.noClose.append (hvtext.append hrest hnext) htext, ?_⟩
    rw [List.head?_append]
    -- the text begins with the blanks before the first word, if there are any
    cases hblank : v.gap.head? with
    | none => exact htext
    | some c =>
      intro hd
      obtain rfl : c = '/' := by simpa using hd
      cases hgap.head _ hblank

/-- A typed field is printed from words the tag had, so it has a delimiter only if one of them has.
-/
theorem Tag.PieceOf.noClose {ws : List Word} {p : Text} (h : Tag.PieceOf ws p)
    (hws : ∀ w ∈ ws, NoClose w.text) : NoClose p := by
  obtain ⟨old, vs, hwritten, -, hold⟩ := h
  rw [← hwritten.source]
  refine (noClose_source (hwritten.phrase none (by simp)) hwritten.typed ?_).1
  intro v hv
  obtain ⟨w, hw, hcore⟩ := List.mem_map.mp (hwritten.core_mem hv)
  have htext : w.text = v.text := congrArg Prod.snd hcore
  rw [← htext]
  -- the word is `of`, which a bound is printed with, or one of the tag's own
  rcases List.mem_cons.mp (hold hw) with rfl | hw
  · decide
  · exact hws w hw

/-- A row has no delimiter if the line it was read from had none. -/
theorem noClose_of_row {ts : List Lexeme} {l : Line} {r : Text} (hts : OnLine ts)
    (hsource : NoClose (Lexeme.source ts)) (hread : ReadsAs ts l) (hrow : l.PrintsAs r) :
    NoClose r := by
  obtain ⟨first, ps, y, rfl, hy, hfragments⟩ := fragments_of_row hts hread hrow
  have hforms : ∀ t ∈ ts, Token.Forms t.kind t.text := by
    intro t ht
    exact (hts.stands.sound _ (List.mem_map_of_mem ht)).forms
  -- ps, NoClose p := by :: a slice of the source has no delimiter, and neither has a typed field
  have hno : ∀ p ∈ first :: ps, NoClose p := by
    intro p hp
    cases hfragments p hp with
    | slice hpass hp => exact List.IsChain.infix (hpass.noClose hforms hsource).2 hp
    | typed hpass hp => exact hp.noClose (hpass.noClose hforms hsource).1
  obtain ⟨hfirst, hps⟩ := List.forall_mem_cons.mp hno
  exact hfirst.append (hy.noClose hps) fun hd => nomatch hy.head _ hd

/-- The rows of a comment have no delimiter if that of its text stands at the end. -/
theorem Comment.noClose_body {s : Text} {c : Comment} (h : parse s = .ok c)
    (honly : ∀ a b, s = a ++ "*/".toList ++ b → b = []) : ∀ r ∈ c.body, NoClose r := by
  intro r hr
  obtain ⟨l, hl, hrow⟩ := exists_of_forall₂_right c.printsAs_body hr
  obtain ⟨a, ts, b, hs, hb, hts, hread⟩ := exists_lexemes_of_mem h l hl
  refine noClose_of_row hts ?_ hread hrow
  -- the source of the whole text, around that of the line
  obtain ⟨tail, heq, hstands, -⟩ := Word.exists_scan s
  rw [← Word.words_ofText, ← hs, Lexeme.words_append, Lexeme.words_append] at heq hstands
  have hne : source (words b) ≠ [] := by
    obtain ⟨u, b, rfl⟩ := List.exists_cons_of_ne_nil hb
    exact Word.source_ne_nil (Word.stands_append.mp hstands).2
  -- a delimiter on the line would have the text of `b` after it
  refine List.isChain_iff_forall_rel_of_append_cons_cons.mpr ?_
  rintro _ _ l₁ l₂ hline rfl rfl
  rw [← Word.source_words] at hline
  have := honly (source (words a) ++ l₁) (l₂ ++ source (words b) ++ tail) (by
    rw [heq]
    simp [hline])
  simp [hne] at this

/-! ## Section 3: Layouts -/

namespace Source

variable {indent out : Text}

/-- Lines of which only the last, with the delimiter after `last`, can close a comment. -/
structure Tidy (init : List Text) (last : Text) : Prop where
  closing : NoClose (last ++ ['*'])
  noClose : ∀ x ∈ init, NoClose x
  noBreak : ∀ x ∈ last :: init, '\n' ∉ x
  endsOff : ∀ x ∈ init, EndsOff Text.isBlank x

namespace Tidy

variable {init : List Text} {last : Text}

/-- The text of the lines. -/
def text (init : List Text) (last : Text) : Text :=
  init.flatMap (· ++ ['\n']) ++ (last ++ "*/".toList)

/-- The lines of a laid out text are those it was made of, the last one with the delimiter. -/
theorem lines_text (h : Tidy init last) :
    (text init last).splitOn '\n' = init ++ [last ++ "*/".toList] := by
  have hjoin (xs : List Text) (z : Text) :
      List.intercalate ['\n'] (xs ++ [z]) = xs.flatMap (· ++ ['\n']) ++ z := by
    induction xs with
    | nil => simp
    | cons x xs ih =>
      obtain ⟨y, ys, hys⟩ := List.exists_cons_of_ne_nil (List.append_ne_nil_of_right_ne_nil xs
        (List.cons_ne_nil z []))
      rw [List.cons_append, hys, List.intercalate_cons_cons, ← hys, ih]
      simp
  -- no line of the layout has a break in it, so cutting undoes the joining
  rw [text, ← hjoin]
  refine List.splitOn_intercalate '\n' ?_ (by simp)
  obtain ⟨hlast, hinit⟩ := List.forall_mem_cons.mp h.noBreak
  refine List.forall_mem_append.mpr ⟨hinit, ?_⟩
  simpa using hlast

/-- The delimiter stands in a laid out text only at its end. -/
theorem closing_text (h : Tidy init last) :
    ∀ a b, text init last = a ++ "*/".toList ++ b → b = [] := by
  obtain ⟨hclosing, hnoClose, -, -⟩ := h
  -- each line ends in no slash, so nothing arises at the breaks
  have hall : NoClose (init.flatMap (· ++ ['\n']) ++ (last ++ ['*'])) := by
    induction init with
    | nil => exact hclosing
    | cons x init ih =>
      obtain ⟨hx, hinit⟩ := List.forall_mem_cons.mp hnoClose
      have := hx.append ((ih hinit).cons (x := '\n') (by simp)) (by simp)
      simpa using this
  have htext : text init last = (init.flatMap (· ++ ['\n']) ++ (last ++ ['*'])) ++ ['/'] := by
    simp [text]
  rw [htext]
  exact Text.noClose_iff.mp hall

end Tidy

/-- A row that can be set off on a line of its own. -/
structure Settled (r : Text) : Prop where
  noClose : NoClose r
  noBreak : '\n' ∉ r
  endsOff : EndsOff Text.isBlank r

theorem settled_nil : Settled [] :=
  ⟨.nil, by simp, by simp [EndsOff]⟩

theorem settled_body {s : Text} {c : Comment} (h : Comment.parse s = .ok c)
    (honly : ∀ a b, s = a ++ "*/".toList ++ b → b = []) : ∀ r ∈ c.body, Settled r := by
  intro r hr
  refine ⟨Comment.noClose_body h honly r hr, Comment.not_mem_newline_body h r hr, ?_⟩
  obtain ⟨line, -, rfl⟩ := List.mem_map.mp hr
  obtain ⟨-, -, -, hend⟩ := Text.exists_dropEndWhile Text.isBlank line
  exact hend

/-- Setting off a row after a text keeps it settled. -/
theorem Settled.setOff {r x : Text} (hr : Settled r) (hx : Settled x) :
    Settled (x ++ Comment.setOff r) := by
  unfold Comment.setOff
  split
  · -- an empty row is not set off
    simpa using hx
  · next hne =>
    have hne : r ≠ [] := by simpa using hne
    refine ⟨hx.noClose.append (hr.noClose.cons (by simp)) (by simp), ?_, ?_⟩
    · simpa using ⟨hx.noBreak, hr.noBreak⟩
    · rw [← List.singleton_append, ← List.append_assoc, Text.endsOff_append hne]
      exact hr.endsOff

theorem settled_opening : Settled "/**".toList :=
  ⟨by decide, by decide, by simp [EndsOff]; decide⟩

theorem settled_marker (hindent : Blanks indent) : Settled (indent ++ " *".toList) where
  noClose := hindent.noClose.append (by decide) (by decide)
  noBreak := by simpa using hindent.not_mem (c := '\n') rfl
  endsOff := by
    rw [Text.endsOff_append (by simp)]
    simp [EndsOff]
    decide

/-- The last line is that of the row, with the delimiter. -/
theorem tidy_oneLine {r : Text} (hr : Settled r) :
    Tidy [] ("/**".toList ++ Comment.setOff r ++ [' ']) where
  closing := by
    have := (hr.setOff settled_opening).noClose.append (y := " *".toList) (by decide) (by decide)
    simpa using this
  noClose := by simp
  noBreak := by simpa using (hr.setOff settled_opening).noBreak
  endsOff := by simp

/-- The last line has nothing but the delimiter on it. -/
theorem tidy_lines (hindent : Blanks indent) {rows : List Text} (hrows : ∀ r ∈ rows, Settled r) :
    Tidy ("/**".toList :: rows.map (fun r => indent ++ " *".toList ++ Comment.setOff r))
      (indent ++ [' ']) := by
  have hinit : ∀ x ∈ "/**".toList :: rows.map (fun r => indent ++ " *".toList ++ Comment.setOff r),
      Settled x := by
    refine List.forall_mem_cons.mpr ⟨settled_opening, ?_⟩
    intro x hx
    obtain ⟨r, hr, rfl⟩ := List.mem_map.mp hx
    exact (hrows r hr).setOff (settled_marker hindent)
  have hmarker := settled_marker hindent
  refine ⟨?_, fun x hx => (hinit x hx).noClose, ?_, fun x hx => (hinit x hx).endsOff⟩
  · -- the last line holds the indent and the delimiter only
    simpa using hmarker.noClose
  · refine List.forall_mem_cons.mpr ⟨?_, fun x hx => (hinit x hx).noBreak⟩
    simpa using hmarker.noBreak

/-- The canonical text of a comment, without its indent and its last line break. -/
def layout (indent : Text) (c : Comment) : Text :=
  if c.oneLine = true ∧ c.body.length ≤ 1 then
    Tidy.text [] ("/**".toList ++ Comment.setOff c.body.flatten ++ [' '])
  else
    Tidy.text ("/**".toList :: c.body.map fun r => indent ++ " *".toList ++ Comment.setOff r)
      (indent ++ [' '])

/-- A comment prints as its layout behind the indent, with a line break at the end. -/
theorem print_eq_layout (indent : Text) (c : Comment) :
    Comment.print { c with indent := indent } = indent ++ layout indent c ++ ['\n'] := by
  have hbody : Comment.body { c with indent := indent } = c.body := rfl
  unfold layout
  rw [Comment.print, hbody]
  split
  · -- no row, on one line
    next hwish hrows =>
    rw [if_pos ⟨hwish, by simp [hrows]⟩, hrows]
    simp [Comment.printOneLine, Tidy.text]
  · -- one row, on one line
    next r hwish hrows =>
    rw [if_pos ⟨hwish, by simp [hrows]⟩, hrows]
    simp [Comment.printOneLine, Tidy.text]
  · -- several lines, for the wish or for the number of rows
    next hempty hsingle =>
    rw [if_neg]
    · simp [Comment.printLines, Tidy.text, List.flatMap_map]
    · rintro ⟨hwish, hlength⟩
      rcases hrows : c.body with _ | ⟨r, _ | ⟨r', rows⟩⟩
      · exact hempty hwish hrows
      · exact hsingle r hwish hrows
      · simp [hrows] at hlength

theorem formatComment_of_parse {s : Text} {c : Comment} (h : Comment.parse s = .ok c)
    (indent : Text) : formatComment indent s = .ok (layout indent c) := by
  rw [formatComment, h, ok_bind, print_eq_layout, List.append_assoc]
  simp only [List.drop_left, List.dropLast_concat]
  rfl

theorem formatComment_eq_ok {s : Text} (h : formatComment indent s = .ok out) :
    ∃ c, Comment.parse s = .ok c ∧ out = layout indent c := by
  obtain ⟨c, hparse, -⟩ := bind_eq_ok.mp h
  rw [formatComment_of_parse hparse] at h
  exact ⟨c, hparse, (Except.ok.inj h).symm⟩

/-- A formatted comment is tidy, and its lines are laid out below its opening. -/
theorem exists_tidy {s : Text} (h : formatComment indent s = .ok out)
    (honly : ∀ a b, s = a ++ "*/".toList ++ b → b = []) (hindent : Blanks indent) :
    ∃ init last, Tidy init last ∧ out = Tidy.text init last ∧
      ("/** ".toList <+: out ∨ "/**\n".toList <+: out) ∧
      ∀ line ∈ (init ++ [last ++ "*/".toList]).tail, indent ++ " *".toList <+: line := by
  obtain ⟨c, hparse, rfl⟩ := formatComment_eq_ok h
  have hrows := settled_body hparse honly
  unfold layout
  split
  · -- on one line
    next hone =>
    -- there is at most one row
    have hrow : Settled c.body.flatten := by
      rcases hbody : c.body with _ | ⟨r, _ | ⟨r', rows⟩⟩
      · exact settled_nil
      · simpa using hrows r (by simp [hbody])
      · simp [hbody] at hone
    refine ⟨_, _, tidy_oneLine hrow, rfl, .inl ?_, by simp⟩
    unfold Comment.setOff
    split <;> simp [Tidy.text]
  · refine ⟨_, _, tidy_lines hindent hrows, rfl, .inr (by simp [Tidy.text]), ?_⟩
    rw [List.cons_append, List.tail_cons]
    refine List.forall_mem_append.mpr ⟨?_, by simp⟩
    intro line hline
    obtain ⟨r, -, rfl⟩ := List.mem_map.mp hline
    exact List.prefix_append _ _

theorem Tidy.closes_text (init : List Text) (last : Text) : "*/".toList <:+ Tidy.text init last :=
  ⟨init.flatMap (· ++ ['\n']) ++ last, by simp [Tidy.text]⟩

/-- A formatted comment closes at its end and nowhere before it, and its lines are laid out below
its opening. -/
theorem formatComment_closed {s : Text} (h : formatComment indent s = .ok out)
    (honly : ∀ a b, s = a ++ "*/".toList ++ b → b = [])
    (hindent : ∀ c ∈ indent, c = ' ' ∨ c = '\t') :
    ("/** ".toList <+: out ∨ "/**\n".toList <+: out) ∧ "*/".toList <:+ out ∧
      (∀ a b, out = a ++ "*/".toList ++ b → b = []) ∧
      (∀ line ∈ (out.splitOn '\n').tail, indent ++ " *".toList <+: line) ∧
      ∀ line ∈ out.splitOn '\n', line.getLast? ≠ some ' ' ∧ line.getLast? ≠ some '\t' := by
  have hblanks : Blanks indent := fun c hc => Token.isBlank_iff.mpr (hindent c hc)
  obtain ⟨init, last, htidy, rfl, hfirst, hothers⟩ := exists_tidy h honly hblanks
  refine ⟨hfirst, Tidy.closes_text init last, htidy.closing_text, ?_, ?_⟩
  · rwa [htidy.lines_text]
  · rw [htidy.lines_text]
    -- the last line ends with the delimiter, the others are settled
    have hends : ∀ line ∈ init ++ [last ++ "*/".toList], EndsOff Text.isBlank line := by
      refine List.forall_mem_append.mpr ⟨htidy.endsOff, List.forall_mem_singleton.mpr ?_⟩
      rw [Text.endsOff_append (by simp)]
      simp [EndsOff]
      decide
    intro line hline
    constructor
    · intro hc
      cases hends line hline _ hc
    · intro hc
      cases hends line hline _ hc

/-- The name of a constant that ends in one half of a delimiter, before the other half. -/
theorem formatComment_closed_constant :
    ∃ out, formatComment ['\t'] "/** @throws A::* /x\n*/".toList = .ok out ∧
      ∀ a b, out = a ++ "*/".toList ++ b → b = [] := by
  -- the asterisk behind `::` is followed by a gap and a slash, which must not meet
  have hts : Lexeme.ofText "/** @throws A::* /x\n*/".toList =
      [⟨⟨.openDoc, "/**".toList, ⟨1, 1⟩⟩, []⟩, ⟨⟨.tag, "@throws".toList, ⟨1, 5⟩⟩, [' ']⟩,
       ⟨⟨.ident, ['A'], ⟨1, 13⟩⟩, [' ']⟩, ⟨⟨.doubleColon, "::".toList, ⟨1, 14⟩⟩, []⟩,
       ⟨⟨.asterisk, ['*'], ⟨1, 16⟩⟩, []⟩, ⟨⟨.other, "/x".toList, ⟨1, 18⟩⟩, [' ']⟩,
       ⟨⟨.newline, ['\n'], ⟨1, 20⟩⟩, []⟩, ⟨⟨.closeDoc, "*/".toList, ⟨2, 1⟩⟩, []⟩] := by
    cbv
  have h : formatComment ['\t'] "/** @throws A::* /x\n*/".toList =
      .ok "/** @throws A::* /x */".toList := by
    rw [formatComment, Comment.parse, hts]
    rfl
  have hno : NoClose "/** @throws A::* /x\n*".toList := by decide
  exact ⟨_, h, (formatComment_closed h (Text.noClose_iff.mp hno) (by simp)).2.2.1⟩

end Source

end Docblock
