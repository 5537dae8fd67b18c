import Docblock.Proofs.Source.Structure

/-!
# Formatting a formatted file

A file is left as it is when each of its comments is.  In a formatted file the comments are those
that were put in place, so only the blanks at the beginning of their lines can make a difference:
they are looked up anew, and an earlier comment on the line may have moved them.

1. `Locator.Sound.format_eq_self_iff`: files that formatting leaves as they are.
2. `formatComment_eq_self_iff`: comments on lines that are indented otherwise.
3. `Locator.Steady.reformat_iff`: formatted files.
4. `format_format_iff`: the same for the scanner.
-/

namespace Docblock.Source

open Text (Blanks)

/-! ## Section 1: Files that are left as they are -/

/-- The error of a comment, with its position in the file. -/
def DocComment.error? (c : DocComment) : Option SyntaxError :=
  match formatComment c.indent c.text with
  | .ok _ => none
  | .error e => some ⟨c.start.within e.pos, e.message⟩

/-- A comment is counted if it gets another text. -/
theorem Piece.changed_format_comment (c : DocComment) :
    (Piece.comment c).format.changed = if c.spliced ≠ c.text then 1 else 0 := by
  rw [Piece.format, DocComment.format]
  cases hformat : formatComment c.indent c.text with
  | ok printed => simp [DocComment.spliced, hformat]
  | error e => simp [DocComment.spliced, hformat]

/-- What is spliced in for a comment that is not refused is its canonical text. -/
theorem spliced_eq_of_ok {c : DocComment} {out : Text}
    (h : formatComment c.indent c.text = .ok out) : c.spliced = out := by
  rw [DocComment.spliced, h]

namespace Locator

variable {find : Locator} {s : Text}

/-- The pieces of a file put together are the file. -/
theorem Sound.text_pieces (h : find.Sound s) : (find.pieces s).flatMap Piece.text = s := by
  conv_rhs => rw [← h.joined]
  unfold pieces
  -- where a segment stands has no part in its text
  generalize Place.start = p
  induction find s generalizing p with
  | nil => rfl
  | cons a xs ih =>
    rw [locate, List.flatMap_cons, ih, joined_cons]
    obtain ⟨isDoc, text⟩ := a
    cases isDoc <;> rfl

theorem mem_docComments {c : DocComment} :
    c ∈ find.docComments s ↔ .comment c ∈ find.pieces s := by
  unfold docComments
  rw [List.mem_filterMap]
  constructor
  · rintro ⟨piece, hpiece, hc⟩
    cases piece with
    | other text => cases hc
    | comment c' =>
      obtain rfl := Option.some.inj hc
      exact hpiece
  · intro hc
    exact ⟨_, hc, rfl⟩

/-- The errors of a file are those of its comments. -/
theorem errors_format (find : Locator) (s : Text) :
    (find.format s).errors = (find.docComments s).filterMap DocComment.error? := by
  unfold format docComments
  induction find.pieces s with
  | nil => rfl
  | cons piece rest ih =>
    rw [List.map_cons, List.foldr_cons, Formatted.append, ih]
    cases piece with
    | other text => rfl
    | comment c =>
      simp only [Piece.format, DocComment.format, List.filterMap_cons, Piece.comment?,
        DocComment.error?]
      cases formatComment c.indent c.text <;> rfl

/-- The comments that are counted are those that get another text. -/
theorem changed_format (find : Locator) (s : Text) :
    (find.format s).changed = (find.docComments s).countP (fun c => c.spliced ≠ c.text) := by
  unfold format docComments
  induction find.pieces s with
  | nil => rfl
  | cons piece rest ih =>
    rw [List.map_cons, List.foldr_cons, Formatted.append, ih]
    cases piece with
    | other text => exact Nat.zero_add _
    | comment c =>
      simp only [Piece.changed_format_comment, List.filterMap_cons, Piece.comment?,
        List.countP_cons, decide_eq_true_eq]
      exact Nat.add_comm _ _

/-- A file of which every comment keeps its text stays as it is. -/
theorem Sound.output_format_of_spliced (hsound : find.Sound s)
    (h : ∀ c ∈ find.docComments s, c.spliced = c.text) : (find.format s).output = s := by
  -- piece by piece: the output has the spliced text where the file has the comment's
  conv_rhs => rw [← hsound.text_pieces]
  rw [output_format, Source.joined, List.flatMap_map]
  apply List.flatMap_congr
  intro piece hpiece
  cases piece with
  | other text => rfl
  | comment c => exact h c (mem_docComments.mpr hpiece)

/-- There are no errors to report if every comment can be printed. -/
theorem errors_format_eq_nil_iff : (find.format s).errors = [] ↔
    ∀ c ∈ find.docComments s, ∃ out, formatComment c.indent c.text = .ok out := by
  rw [errors_format, List.filterMap_eq_nil_iff]
  refine forall₂_congr fun c _ => ?_
  unfold DocComment.error?
  cases formatComment c.indent c.text <;> simp

/-- Where nothing is refused, no comment is counted if each is printed as it was. -/
theorem changed_format_eq_zero_iff (herrors : (find.format s).errors = []) :
    (find.format s).changed = 0 ↔
      ∀ c ∈ find.docComments s, formatComment c.indent c.text = .ok c.text := by
  rw [changed_format, List.countP_eq_zero]
  refine forall₂_congr fun c hc => ?_
  -- a comment that is not refused is counted if its canonical text is another
  obtain ⟨out, hout⟩ := errors_format_eq_nil_iff.mp herrors c hc
  rw [spliced_eq_of_ok hout, hout]
  simp

/-- Formatting leaves a file as it is if it does so with each comment. -/
theorem Sound.format_eq_self_iff (hsound : find.Sound s) : find.format s = ⟨s, [], 0⟩ ↔
    ∀ c ∈ find.docComments s, formatComment c.indent c.text = .ok c.text := by
  constructor
  · intro h
    have herrors : (find.format s).errors = [] := by rw [h]
    exact (changed_format_eq_zero_iff herrors).mp (by rw [h])
  · intro h
    have herrors : (find.format s).errors = [] :=
      errors_format_eq_nil_iff.mpr fun c hc => ⟨c.text, h c hc⟩
    have houtput : (find.format s).output = s :=
      hsound.output_format_of_spliced fun c hc => spliced_eq_of_ok (h c hc)
    have hchanged := (changed_format_eq_zero_iff herrors).mpr h
    calc find.format s =
        ⟨(find.format s).output, (find.format s).errors, (find.format s).changed⟩ := rfl
      _ = ⟨s, [], 0⟩ := by rw [houtput, herrors, hchanged]

end Locator

/-! ## Section 2: Comments on lines indented otherwise -/

variable {indent indent' out : Text}

/-- A comment that takes several lines shows the blanks of its line. -/
theorem takeWhile_layout (hindent : Blanks indent) {c : Comment}
    (h : ¬(c.oneLine = true ∧ c.body.length ≤ 1)) :
    ((layout indent c).drop 4).takeWhile Text.isBlank = indent ++ [' '] := by
  -- the second line begins with the indent, a blank and a `*`, whatever the comment holds
  obtain ⟨z, hz⟩ : ∃ z, layout indent c = "/**\n".toList ++ (indent ++ [' '] ++ '*' :: z) := by
    rw [layout, if_neg h, Tidy.text]
    cases c.body with
    | nil => exact ⟨['/'], by simp⟩
    | cons r rows => exact ⟨_, by simp only [List.flatMap_cons, List.map_cons]; simp; rfl⟩
  have hdrop : (layout indent c).drop 4 = indent ++ [' '] ++ '*' :: z := by
    rw [hz]
    rfl
  have hblanks : ∀ d ∈ indent ++ [' '], Text.isBlank d = true := by
    rw [List.forall_mem_append]
    exact ⟨hindent, List.forall_mem_singleton.mpr rfl⟩
  rw [hdrop, List.takeWhile_append_of_pos hblanks, List.takeWhile_cons_of_neg (by decide),
    List.append_nil]

/-- A comment takes several lines unless it is laid out on one. -/
theorem newline_mem_layout_iff (indent : Text) {s : Text} {c : Comment}
    (hparse : Comment.parse s = .ok c) :
    '\n' ∈ layout indent c ↔ ¬(c.oneLine = true ∧ c.body.length ≤ 1) := by
  unfold layout
  split
  · next hone =>
    -- on one line, the only text that could hold a line break is the body, and no row of it does
    have hrows : '\n' ∉ c.body.flatten := by
      rw [List.mem_flatten]
      rintro ⟨r, hr, hmem⟩
      exact Comment.not_mem_newline_body hparse r hr hmem
    have hsetOff : '\n' ∉ Comment.setOff c.body.flatten := by
      unfold Comment.setOff
      split
      · exact List.not_mem_nil
      · simpa using hrows
    simp [Tidy.text, hsetOff, hone]
  · next hone => simp [Tidy.text, hone]

/-- A comment that is left as it is on one line is left so on another if the lines are indented
alike, or if it takes one line only. -/
theorem formatComment_eq_self_iff (hindent : Blanks indent) (hindent' : Blanks indent')
    (h : formatComment indent out = .ok out) :
    formatComment indent' out = .ok out ↔ indent' = indent ∨ '\n' ∉ out := by
  obtain ⟨c, hparse, hlayout⟩ := formatComment_eq_ok h
  have hlines := newline_mem_layout_iff indent hparse
  rw [← hlayout] at hlines
  rw [formatComment_of_parse hparse, Except.ok.injEq, hlines, not_not]
  constructor
  · -- a comment of several lines shows the blanks it was printed with
    intro hsame
    refine or_iff_not_imp_right.mpr fun hmore => ?_
    have hblanks := takeWhile_layout hindent hmore
    rw [← hlayout, ← hsame, takeWhile_layout hindent' hmore] at hblanks
    exact List.append_cancel_right hblanks
  · -- on one line, the blanks before the comment are not printed at all
    rintro (rfl | hone)
    · exact hlayout.symm
    · rw [layout, if_pos hone] at hlayout ⊢
      exact hlayout.symm

/-! ## Section 3: Formatted files -/

/-- What takes the place of a doc comment is one. -/
theorem Replaces.isDocComment {a b : Segment} (h : Replaces a b) (hdoc : b.isDoc = true) :
    IsDocComment b.text := by
  cases h with
  | same t => cases hdoc
  | doc _ hu _ => exact hu

namespace Locator

variable {find : Locator} {s : Text}

/-- The blanks before a comment are blanks. -/
theorem blanks_of_mem_docComments {c : DocComment} (hc : c ∈ find.docComments s) :
    Blanks c.indent := by
  rw [mem_docComments, pieces] at hc
  generalize Place.start = p, find s = xs at hc
  -- along the segments, each comment gets its blanks from the place that is reached
  induction xs generalizing p with
  | nil => cases hc
  | cons a xs ih =>
    rw [locate] at hc
    rcases List.mem_cons.mp hc with heq | hc
    · split at heq
      · obtain rfl := Piece.comment.inj heq
        exact blanks_indent p
      · cases heq
    · exact ih _ hc

namespace Steady

variable (hsteady : find.Steady s) (hsound : find.Sound s)
include hsteady hsound

/-- A lexer that is sound on a file is sound on the formatted file. -/
theorem sound_format : find.Sound (find.format s).output := by
  have hfind := hsteady.find_format hsound
  refine ⟨by rw [hfind, output_format], ?_⟩
  rw [hfind]
  intro b hb
  -- a segment that is found in the output took the place of one of the file
  obtain ⟨a, -, hab⟩ := exists_of_forall₂_right hsound.replaces_pieces hb
  exact hab.isDocComment

/-- The comments of a formatted file beside those of the file. -/
theorem forall₂_docComments_format :
    List.Forall₂ (fun c c' => c'.text = c.spliced) (find.docComments s)
      (find.docComments (find.format s).output) := by
  have htexts := (hsteady.text_docComments_format hsound).symm
  rw [← List.forall₂_eq_eq_eq, List.forall₂_map_left_iff, List.forall₂_map_right_iff] at htexts
  exact htexts.imp fun _ _ heq => heq.symm

/-- The comments of a formatted file that are left as they are. -/
theorem forall_formatComment_iff (herrors : (find.format s).errors = [])
    (hstable : ∀ c ∈ find.docComments s, ∀ out, formatComment c.indent c.text = .ok out →
      formatComment c.indent out = .ok out) :
    (∀ c' ∈ find.docComments (find.format s).output,
        formatComment c'.indent c'.text = .ok c'.text) ↔
      List.Forall₂ (fun c c' => c'.indent = c.indent ∨ '\n' ∉ c'.text) (find.docComments s)
        (find.docComments (find.format s).output) := by
  -- every comment is stable where it stands in the file
  have hown : ∀ c ∈ find.docComments s, Blanks c.indent ∧
      formatComment c.indent c.spliced = .ok c.spliced := by
    intro c hc
    obtain ⟨out, hout⟩ := errors_format_eq_nil_iff.mp herrors c hc
    rw [spliced_eq_of_ok hout]
    exact ⟨blanks_of_mem_docComments hc, hstable c hc out hout⟩
  have hnew : ∀ c' ∈ find.docComments (find.format s).output, Blanks c'.indent :=
    fun c' hc' => blanks_of_mem_docComments hc'
  have hpairs := hsteady.forall₂_docComments_format hsound
  clear hstable
  generalize find.docComments s = cs, find.docComments (find.format s).output = cs' at *
  -- over the pairs: a comment that was stable where it stood is looked at where it stands now
  induction hpairs with
  | nil => simp
  | @cons c c' cs cs' htext hpairs ih =>
    obtain ⟨⟨hindent, hfixed⟩, hown⟩ := List.forall_mem_cons.mp hown
    obtain ⟨hindent', hnew⟩ := List.forall_mem_cons.mp hnew
    rw [List.forall_mem_cons, List.forall₂_cons, htext,
      formatComment_eq_self_iff hindent hindent' hfixed]
    exact and_congr_right fun _ => ih hown hnew

/-- A formatted file is left as it is if every comment has the blanks before it that it had in the
file, or takes one line only. -/
theorem reformat_iff (herrors : (find.format s).errors = [])
    (hstable : ∀ c ∈ find.docComments s, ∀ out, formatComment c.indent c.text = .ok out →
      formatComment c.indent out = .ok out) :
    find.format (find.format s).output = ⟨(find.format s).output, [], 0⟩ ↔
      List.Forall₂ (fun c c' => c'.indent = c.indent ∨ '\n' ∉ c'.text) (find.docComments s)
        (find.docComments (find.format s).output) := by
  rw [(hsteady.sound_format hsound).format_eq_self_iff]
  exact hsteady.forall_formatComment_iff hsound herrors hstable

end Steady

end Locator

/-! ## Section 4: The scanner -/

/-- A formatted file is left as it is if every comment has the blanks before it that it had in the
file, or takes one line only. -/
theorem format_format_iff {s : Text} (hpeeks : peeksIntoComments s = false)
    (herrors : (format s).errors = [])
    (hstable : ∀ c ∈ docComments s, ∀ out, formatComment c.indent c.text = .ok out →
      formatComment c.indent out = .ok out) :
    format (format s).output = ⟨(format s).output, [], 0⟩ ↔
      List.Forall₂ (fun c c' => c'.indent = c.indent ∨ '\n' ∉ c'.text) (docComments s)
        (docComments (format s).output) :=
  (steady_segments hpeeks).reformat_iff (sound_segments s) herrors hstable

/-- A comment that begins on the line on which another one ends.  The first is moved to the right,
and so is what comes after it on its last line. -/
theorem format_format_moved :
    (format "<?php\n    /**\n * a */ /**\n b\n */\n".toList).errors = [] ∧
      (∀ c ∈ docComments "<?php\n    /**\n * a */ /**\n b\n */\n".toList,
        ∃ out, formatComment c.indent c.text = .ok out ∧ formatComment c.indent out = .ok out) ∧
      (format (format "<?php\n    /**\n * a */ /**\n b\n */\n".toList).output).changed = 1 := by
  have hdocs : docComments "<?php\n    /**\n * a */ /**\n b\n */\n".toList =
      [⟨"/**\n * a */".toList, 10, ⟨2, 5⟩, "    ".toList⟩,
       ⟨"/**\n b\n */".toList, 22, ⟨3, 9⟩, [' ']⟩] := by
    cbv
  have hfirst : formatComment "    ".toList "/**\n * a */".toList =
      .ok "/**\n     * a\n     */".toList := by
    cbv
  have hfirst' : formatComment "    ".toList "/**\n     * a\n     */".toList =
      .ok "/**\n     * a\n     */".toList := by
    cbv
  have hsecond : formatComment [' '] "/**\n b\n */".toList = .ok "/**\n  * b\n  */".toList := by
    cbv
  have hsecond' : formatComment [' '] "/**\n  * b\n  */".toList =
      .ok "/**\n  * b\n  */".toList := by
    cbv
  refine ⟨by cbv, ?_, by cbv⟩
  rw [hdocs]
  simp only [List.forall_mem_cons]
  exact ⟨⟨_, hfirst, hfirst'⟩, ⟨_, hsecond, hsecond'⟩, by simp⟩

/-- A comment in a string, which keeps the blanks of its line. -/
theorem format_format_iff_nested :
    format (format "<?php\n\t`\x7b$a /**\n b */\x7d`;".toList).output =
      ⟨(format "<?php\n\t`\x7b$a /**\n b */\x7d`;".toList).output, [], 0⟩ := by
  have hdocs : docComments "<?php\n\t`\x7b$a /**\n b */\x7d`;".toList =
      [⟨"/**\n b */".toList, 12, ⟨2, 7⟩, ['\t']⟩] := by
    cbv
  -- the comment stands on its own line in the output, behind the same tab
  have hdocs' : docComments (format "<?php\n\t`\x7b$a /**\n b */\x7d`;".toList).output =
      [⟨"/**\n\t * b\n\t */".toList, 12, ⟨2, 7⟩, ['\t']⟩] := by
    cbv
  have hprinted : formatComment ['\t'] "/**\n b */".toList = .ok "/**\n\t * b\n\t */".toList := by
    cbv
  have hfixed : formatComment ['\t'] "/**\n\t * b\n\t */".toList =
      .ok "/**\n\t * b\n\t */".toList := by
    cbv
  have hstable : ∀ c ∈ docComments "<?php\n\t`\x7b$a /**\n b */\x7d`;".toList, ∀ out,
      formatComment c.indent c.text = .ok out → formatComment c.indent out = .ok out := by
    rw [hdocs, List.forall_mem_singleton]
    intro out hout
    rw [hprinted] at hout
    cases hout
    exact hfixed
  refine (format_format_iff (peeksIntoComments_of_not_mem (by simp)) (by cbv) hstable).mpr ?_
  rw [hdocs, hdocs']
  exact .cons (.inl rfl) .nil

end Docblock.Source
