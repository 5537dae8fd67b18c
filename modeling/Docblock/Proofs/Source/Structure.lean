import Docblock.Proofs.Source.Segments

/-!
# Formatting keeps the comments of a file

A lexer finds the same doc comments in a formatted file as in the file it was made from, each with
the text that was put in its place.

1. `Piece.spliced`: what takes the place of a piece.
2. `Locator.Sound.replaces_pieces`: it may take that place.
3. `Locator.Steady.text_docComments_format`: the comments of the formatted file.
4. `docComments_format`: the same for the scanner.
-/

namespace Docblock.Source

open Text (Blanks)

/-! ## Section 1: What takes the place of a piece -/

/-- What takes the place of a comment: its canonical text, or its own where it is refused. -/
def DocComment.spliced (c : DocComment) : Text :=
  match formatComment c.indent c.text with
  | .ok printed => printed
  | .error _ => c.text

/-- What takes the place of a piece. -/
def Piece.spliced : Piece → Segment
  | .other text => ⟨false, text⟩
  | .comment c => ⟨true, c.spliced⟩

/-- Formatting a piece puts out what takes its place, whether or not there is an error to report. -/
theorem Piece.output_format (piece : Piece) : piece.format.output = piece.spliced.text := by
  cases piece with
  | other text => rfl
  | comment c =>
    simp only [Piece.format, DocComment.format, Piece.spliced, DocComment.spliced]
    cases formatComment c.indent c.text <;> rfl

/-- The texts of the doc comments among some segments. -/
def docTexts (xs : List Segment) : List Text :=
  (xs.filter Segment.isDoc).map Segment.text

namespace Locator

variable (find : Locator) (s : Text)

/-- The formatted text is made of what takes the place of the pieces. -/
theorem output_format :
    (find.format s).output = joined ((find.pieces s).map Piece.spliced) := by
  unfold format
  induction find.pieces s with
  | nil => rfl
  | cons piece rest ih =>
    rw [List.map_cons, List.foldr_cons, List.map_cons, joined_cons, ← ih, ← piece.output_format]
    rfl

/-- The comments of a file have the texts of the segments that are found. -/
theorem text_docComments : (find.docComments s).map DocComment.text = docTexts (find s) := by
  unfold docComments pieces
  generalize Place.start = p
  -- the places that are carried along make no difference to the texts
  induction find s generalizing p with
  | nil => rfl
  | cons a xs ih =>
    obtain ⟨isDoc, text⟩ := a
    cases isDoc with
    | false => exact ih _
    | true => exact congrArg (text :: ·) (ih _)

/-- Its comments are what takes the place of the comments. -/
theorem docTexts_spliced :
    docTexts ((find.pieces s).map Piece.spliced) =
      (find.docComments s).map DocComment.spliced := by
  unfold docComments
  induction find.pieces s with
  | nil => rfl
  | cons piece rest ih =>
    cases piece with
    | other text => exact ih
    | comment c => exact congrArg (c.spliced :: ·) ih

end Locator

/-! ## Section 2: It may take that place -/

/-- A formatted doc comment is one again. -/
theorem isDocComment_formatComment {indent s out : Text} (hindent : Blanks indent)
    (hs : IsDocComment s) (h : formatComment indent s = .ok out) : IsDocComment out := by
  obtain ⟨init, last, htidy, rfl, hopens, -⟩ := exists_tidy h hs.closes hindent
  have honly := htidy.closing_text
  obtain ⟨z, hz⟩ := Tidy.closes_text init last
  rw [← hz] at hopens honly ⊢
  obtain ⟨d, hd, hopens⟩ : ∃ d, isDocSpace d = true ∧ ['/', '*', '*', d] <+: z ++ "*/".toList := by
    rcases hopens with hopens | hopens
    · exact ⟨' ', rfl, hopens⟩
    · exact ⟨'\n', rfl, hopens⟩
  -- the delimiter stands after the opening
  rcases z with _ | ⟨a, _ | ⟨b, _ | ⟨c, _ | ⟨e, z⟩⟩⟩⟩
  · simp at hopens
  · simp at hopens
  · obtain ⟨-, -, rfl⟩ : '/' = a ∧ '*' = b ∧ d = '/' := by simpa using hopens
    cases hd
  · obtain ⟨-, -, -, rfl⟩ : '/' = a ∧ '*' = b ∧ '*' = c ∧ d = '*' := by simpa using hopens
    cases hd
  · obtain ⟨rfl, rfl, rfl, rfl⟩ : '/' = a ∧ '*' = b ∧ '*' = c ∧ d = e := by
      simpa using hopens
    exact IsDocComment.of_closes hd honly

/-- The indent of a place is made of blanks. -/
theorem blanks_indent (p : Place) : Blanks p.indent :=
  fun _ hc => List.mem_takeWhile_imp hc

/-- What is spliced in for a comment may take its place: it is a doc comment again, and it has the
braces of the old one. -/
theorem replaces_spliced {c : DocComment} (hindent : Blanks c.indent) (hc : IsDocComment c.text) :
    Replaces ⟨true, c.text⟩ (Piece.comment c).spliced := by
  simp only [Piece.spliced, DocComment.spliced]
  split
  · next h =>
    exact .doc hc (isDocComment_formatComment hindent hc h) (braces_formatComment hindent h).symm
  · exact .doc hc hc rfl

/-- The comments are found with the blanks before them, so they can be printed from any place on. -/
theorem replaces_locate {xs : List Segment}
    (hdoc : ∀ a ∈ xs, a.isDoc = true → IsDocComment a.text) (p : Place) :
    List.Forall₂ Replaces xs ((locate p xs).map Piece.spliced) := by
  induction xs generalizing p with
  | nil => exact .nil
  | cons a xs ih =>
    obtain ⟨hfirst, hrest⟩ := List.forall_mem_cons.mp hdoc
    refine .cons ?_ (ih hrest _)
    obtain ⟨isDoc, text⟩ := a
    cases isDoc with
    | false => exact .same text
    | true => exact replaces_spliced (c := ⟨text, p.offset, p.pos, p.indent⟩) (blanks_indent p) (hfirst rfl)

namespace Locator

variable {find : Locator} {s : Text}

theorem Sound.replaces_pieces (h : find.Sound s) :
    List.Forall₂ Replaces (find s) ((find.pieces s).map Piece.spliced) :=
  replaces_locate h.isDocComment .start

/-! ## Section 3: The comments of a formatted file -/

/-- A formatted file is divided into what took the places of the pieces. -/
theorem Steady.find_format (hsteady : find.Steady s) (hsound : find.Sound s) :
    find (find.format s).output = (find.pieces s).map Piece.spliced := by
  rw [output_format]
  exact hsteady _ hsound.replaces_pieces

/-- The doc comments of a formatted file are those of the file, in order, each with the text that
took its place. -/
theorem Steady.text_docComments_format (hsteady : find.Steady s) (hsound : find.Sound s) :
    (find.docComments (find.format s).output).map DocComment.text =
      (find.docComments s).map DocComment.spliced := by
  rw [text_docComments, hsteady.find_format hsound, docTexts_spliced]

end Locator

/-! ## Section 4: The scanner -/

/-- The doc comments of a formatted file are those of the file, in order, each with the text that
took its place.  What is assumed is that the scanner takes no notice of the bodies of comments. -/
theorem docComments_format {s : Text} (h : peeksIntoComments s = false) :
    (docComments (format s).output).map DocComment.text =
      (docComments s).map fun c =>
        match formatComment c.indent c.text with
        | .ok printed => printed
        | .error _ => c.text :=
  (steady_segments h).text_docComments_format (sound_segments s)

/-- Two comments of which one stands in an expression in a string, and one is refused. -/
theorem docComments_format_nested :
    (docComments (format
      "<?php `\x7b$a[/** \x7b@see b\x7d\n*/ 0]\x7d`; /** @var */".toList).output).map
        DocComment.text = ["/** \x7b@see b\x7d */".toList, "/** @var */".toList] := by
  have hdocs : docComments "<?php `\x7b$a[/** \x7b@see b\x7d\n*/ 0]\x7d`; /** @var */".toList =
      [⟨"/** \x7b@see b\x7d\n*/".toList, 11, ⟨1, 12⟩, []⟩,
       ⟨"/** @var */".toList, 33, ⟨2, 10⟩, []⟩] := by
    cbv
  have hts : Lexeme.ofText "/** \x7b@see b\x7d\n*/".toList =
      [⟨⟨.openDoc, "/**".toList, ⟨1, 1⟩⟩, []⟩, ⟨⟨.lbrace, ['\x7b'], ⟨1, 5⟩⟩, [' ']⟩,
       ⟨⟨.tag, "@see".toList, ⟨1, 6⟩⟩, []⟩, ⟨⟨.ident, ['b'], ⟨1, 11⟩⟩, [' ']⟩,
       ⟨⟨.rbrace, ['\x7d'], ⟨1, 12⟩⟩, []⟩, ⟨⟨.newline, ['\n'], ⟨1, 13⟩⟩, []⟩,
       ⟨⟨.closeDoc, "*/".toList, ⟨2, 1⟩⟩, []⟩] := by
    cbv
  have hts' : Lexeme.ofText "/** @var */".toList =
      [⟨⟨.openDoc, "/**".toList, ⟨1, 1⟩⟩, []⟩, ⟨⟨.tag, "@var".toList, ⟨1, 5⟩⟩, [' ']⟩,
       ⟨⟨.closeDoc, "*/".toList, ⟨1, 10⟩⟩, [' ']⟩] := by
    cbv
  have hprinted : formatComment [] "/** \x7b@see b\x7d\n*/".toList =
      .ok "/** \x7b@see b\x7d */".toList := by
    rw [formatComment, Comment.parse, hts]
    rfl
  have hrefused : ∃ e, formatComment [] "/** @var */".toList = .error e := by
    rw [formatComment, Comment.parse, hts']
    exact ⟨_, rfl⟩
  obtain ⟨e, he⟩ := hrefused
  rw [docComments_format (peeksIntoComments_of_not_mem (by simp)), hdocs]
  simp only [List.map_cons, List.map_nil, hprinted, he]

-- an index that breaks off at a quote, after which the scanner looks into the comment
example : (docComments "<?php `$v[\" ` /** $\u00a0 */".toList).length = 1 ∧
    docComments (format "<?php `$v[\" ` /** $\u00a0 */".toList).output = [] := by
  cbv

end Docblock.Source
