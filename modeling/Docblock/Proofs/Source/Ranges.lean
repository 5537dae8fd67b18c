import Docblock.Proofs.Position
import Docblock.Proofs.Source.Stability

/-!
# Comments as ranges of a file

The comments of a file are ranges of its bytes.  Formatting goes through them from left to right,
puts other texts in their place and copies what stands between them; so the result can be told from
the ranges alone, without a look at how they were found.

## Contents

1. `Text.slice`: a part of a text, by byte offsets.
2. `Locator.Sound.exists_of_mem_docComments`, `Locator.pairwise_follows`: the ranges of the comments.
3. `spliceFrom`: a file with other texts in some ranges; `Locator.Sound.output_format_eq_splice`.
4. `Locator.Sound.splices`: what formatting does to a file, for any lexer.
5. `format_splices`: the same for the scanner.
-/

namespace Docblock

/-! ## Section 1: Parts of a text -/

/-- The characters between two byte offsets. -/
def Text.slice (s : Text) (i j : Nat) : Text :=
  (s.takeBytes j).drop (s.takeBytes i).length

/-- What stands between two texts is the slice from the end of the one to the beginning of the
other. -/
theorem Text.slice_append (pre mid post : Text) :
    slice (pre ++ (mid ++ post)) (byteSize pre) (byteSize pre + byteSize mid) = mid := by
  rw [slice, takeBytes_append, takeBytes_byteSize, takeBytes_byteSize, List.drop_left]

namespace Source

/-! ## Section 2: The ranges of the comments -/

/-- A place counts the bytes of what is before it. -/
theorem Place.offset_advance (p : Place) (s : Text) :
    (p.advance s).offset = p.offset + Text.byteSize s := by
  induction s generalizing p with
  | nil => rfl
  | cons c s ih =>
    have hstep : (p.step c).offset = p.offset + c.utf8Size := rfl
    have hadvance : (p.advance (c :: s)).offset = ((p.step c).advance s).offset := rfl
    rw [hadvance, ih, hstep, Text.byteSize_cons, Nat.add_assoc]

/-- A place carries its position along. -/
theorem Place.pos_advance (p : Place) (s : Text) : (p.advance s).pos = p.pos.advance s := by
  induction s generalizing p with
  | nil => rfl
  | cons c s ih => exact ih (p.step c)

/-- A comment that is found from a place on stands some characters after it. -/
theorem exists_of_mem_locate {p : Place} {xs : List Segment} {c : DocComment}
    (hc : .comment c ∈ locate p xs) :
    ∃ gap after, joined xs = gap ++ (c.text ++ after) ∧ c.offset = p.offset + Text.byteSize gap ∧
      c.start = p.pos.advance gap := by
  induction xs generalizing p with
  | nil => cases hc
  | cons a xs ih =>
    rw [locate] at hc
    rcases List.mem_cons.mp hc with heq | hc
    · -- the comment is the first segment, with nothing before it
      split at heq
      · obtain rfl := Piece.comment.inj heq
        exact ⟨[], joined xs, rfl, rfl, rfl⟩
      · cases heq
    · obtain ⟨gap, after, hsplit, hoffset, hstart⟩ := ih hc
      refine ⟨a.text ++ gap, after, ?_, ?_, ?_⟩
      · rw [joined_cons, hsplit, List.append_assoc]
      · rw [hoffset, Place.offset_advance, Text.byteSize_append, Nat.add_assoc]
      · rw [hstart, Place.pos_advance, Position.advance_append]

namespace Locator.Sound

variable {find : Locator} {s : Text} {c : DocComment}

/-- The place of a comment in its file. -/
theorem exists_of_mem_docComments (h : find.Sound s) (hc : c ∈ find.docComments s) :
    ∃ before after, s = before ++ (c.text ++ after) ∧ c.offset = Text.byteSize before ∧
      c.start = Position.start.advance before := by
  obtain ⟨before, after, hsplit, hoffset, hstart⟩ := exists_of_mem_locate (mem_docComments.mp hc)
  rw [h.joined] at hsplit
  rw [Place.start, Nat.zero_add] at hoffset
  exact ⟨before, after, hsplit, hoffset, hstart⟩

theorem isDocComment_of_mem_docComments (h : find.Sound s) (hc : c ∈ find.docComments s) :
    IsDocComment c.text := by
  have htext : c.text ∈ docTexts (find s) := by
    rw [← text_docComments]
    exact List.mem_map_of_mem hc
  obtain ⟨a, ha, htext⟩ := List.mem_map.mp htext
  obtain ⟨ha, hdoc⟩ := List.mem_filter.mp ha
  rw [← htext]
  exact h.isDocComment a ha hdoc

end Locator.Sound

/-- The comment `d` begins at the end of the comment `c`, or further on. -/
def Follows (c d : DocComment) : Prop :=
  ∃ gap, d.offset = c.stop + Text.byteSize gap ∧ d.start = c.start.advance (c.text ++ gap)

/-- The comments are found one after the other. -/
theorem Locator.pairwise_follows (find : Locator) (s : Text) :
    (find.docComments s).Pairwise Follows := by
  unfold docComments pieces
  generalize Place.start = p
  -- each comment that is found later stands some characters behind the end of this one
  induction find s generalizing p with
  | nil => exact .nil
  | cons a xs ih =>
    obtain ⟨isDoc, text⟩ := a
    cases isDoc with
    | false => exact ih (p.advance text)
    | true =>
      refine List.pairwise_cons.mpr ⟨?_, ih (p.advance text)⟩
      intro d hd
      obtain ⟨piece, hpiece, hcomment⟩ := List.mem_filterMap.mp hd
      cases piece with
      | other other => cases hcomment
      | comment d' =>
        obtain rfl := Option.some.inj hcomment
        obtain ⟨gap, -, -, hoffset, hstart⟩ := exists_of_mem_locate hpiece
        refine ⟨gap, ?_, ?_⟩
        · rw [hoffset, Place.offset_advance]
          rfl
        · rw [hstart, Place.pos_advance, Position.advance_append]

/-! ## Section 3: Files with other texts in some ranges -/

/-- A file from the byte offset `last` on, with other texts in the ranges of some comments. -/
def spliceFrom (s : Text) (new : DocComment → Text) (last : Nat) : List DocComment → Text
  | [] => s.slice last s.byteSize
  | c :: cs => s.slice last c.offset ++ new c ++ spliceFrom s new c.stop cs

/-- The range of a comment is cut out of a file at its two ends; `copied` is what has been passed
since the last cut. -/
theorem spliceFrom_locate (xs : List Segment) (before copied : Text) {p : Place}
    (hp : p.offset = Text.byteSize before + Text.byteSize copied) :
    spliceFrom (before ++ (copied ++ joined xs)) DocComment.spliced (Text.byteSize before)
        ((locate p xs).filterMap Piece.comment?) =
      copied ++ joined ((locate p xs).map Piece.spliced) := by
  -- `before` ends with the last comment, so a comment sets `copied` back to nothing
  induction xs generalizing before copied p with
  | nil =>
    have hcut := Text.slice_append before copied []
    rw [← Text.byteSize_append, List.append_nil] at hcut
    simp only [locate, List.filterMap_nil, spliceFrom, joined_nil, List.map_nil, List.append_nil]
    exact hcut
  | cons a xs ih =>
    obtain ⟨isDoc, text⟩ := a
    have hoffset : (p.advance text).offset =
        Text.byteSize before + Text.byteSize (copied ++ text) := by
      rw [Place.offset_advance, hp, Text.byteSize_append, Nat.add_assoc]
    cases isDoc with
    | false =>
      -- other text waits to be copied with what is before it
      have hrest := ih before (copied ++ text) hoffset
      rw [List.append_assoc, List.append_assoc] at hrest
      exact hrest
    | true =>
      have hfile : before ++ (copied ++ joined (⟨true, text⟩ :: xs)) =
          (before ++ (copied ++ text)) ++ ([] ++ joined xs) := by
        simp
      have hcut : Text.slice (before ++ (copied ++ joined (⟨true, text⟩ :: xs)))
          (Text.byteSize before) p.offset = copied := by
        rw [hp]
        exact Text.slice_append before copied _
      have hstop : p.offset + Text.byteSize text = Text.byteSize (before ++ (copied ++ text)) := by
        rw [hp, Text.byteSize_append, Text.byteSize_append, Nat.add_assoc]
      have hrest := ih (before ++ (copied ++ text)) [] (p := p.advance text)
        (by rw [Place.offset_advance, hstop]; rfl)
      have hcons : (locate p (⟨true, text⟩ :: xs)).filterMap Piece.comment? =
          ⟨text, p.offset, p.pos, p.indent⟩ ::
            (locate (p.advance text) xs).filterMap Piece.comment? := rfl
      rw [hcons, spliceFrom, hcut, DocComment.stop, hstop, hfile, hrest, List.append_assoc]
      rfl

/-! ## Section 4: What formatting does to a file -/

namespace Locator.Sound

variable {find : Locator} {s : Text} (hsound : find.Sound s)
include hsound

theorem output_format_eq_splice :
    (find.format s).output = spliceFrom s DocComment.spliced 0 (find.docComments s) := by
  have hsplice := spliceFrom_locate (find s) [] [] (p := .start) rfl
  rw [hsound.joined] at hsplice
  rw [output_format]
  exact hsplice.symm

/-- A file stays as it is only if all its comments do: they could make it up in one way only. -/
theorem output_format_eq_self_iff :
    (find.format s).output = s ↔ ∀ c ∈ find.docComments s, c.spliced = c.text := by
  constructor
  · intro h
    -- the file and the result are cut at the same places
    have hsame : find s = (find.pieces s).map Piece.spliced := by
      apply joined_injective hsound.replaces_pieces
      rw [hsound.joined, ← output_format, h]
    have htexts : (find.docComments s).map DocComment.text =
        (find.docComments s).map DocComment.spliced := by
      rw [text_docComments, hsame, docTexts_spliced]
    exact fun c hc => (List.map_inj_left.mp htexts c hc).symm
  · exact hsound.output_format_of_spliced

theorem output_format_eq_self_iff_changed :
    (find.format s).output = s ↔ (find.format s).changed = 0 := by
  rw [hsound.output_format_eq_self_iff, changed_format, List.countP_eq_zero]
  simp

/-- The comments of a file are ranges of it, one after the other.  Formatting puts in each range
what was printed for the comment, or its own text if it is refused, and copies all the rest.  It
reports every comment that is refused, in order, and counts those that get another text; the file
stays as it is if there are none. -/
theorem splices :
    (find.docComments s).Pairwise (fun c d => c.stop ≤ d.offset) ∧
      (∀ c ∈ find.docComments s,
        c.stop ≤ s.byteSize ∧ s.slice c.offset c.stop = c.text ∧ IsDocComment c.text) ∧
      (find.format s).output = spliceFrom s DocComment.spliced 0 (find.docComments s) ∧
      (find.format s).errors = (find.docComments s).filterMap DocComment.error? ∧
      (find.format s).changed = (find.docComments s).countP (fun c => c.spliced ≠ c.text) ∧
      ((find.format s).output = s ↔ (find.format s).changed = 0) := by
  refine ⟨?_, ?_, hsound.output_format_eq_splice, errors_format find s, changed_format find s,
    hsound.output_format_eq_self_iff_changed⟩
  · refine (find.pairwise_follows s).imp ?_
    rintro c d ⟨gap, hoffset, -⟩
    rw [hoffset]
    exact Nat.le_add_right _ _
  · intro c hc
    -- the text of the comment stands between what is before it and what is after it
    obtain ⟨before, after, hfile, hoffset, -⟩ := hsound.exists_of_mem_docComments hc
    refine ⟨?_, ?_, hsound.isDocComment_of_mem_docComments hc⟩
    · rw [hfile, DocComment.stop, hoffset, Text.byteSize_append, Text.byteSize_append]
      omega
    · rw [hfile, DocComment.stop, hoffset]
      exact Text.slice_append before c.text after

end Locator.Sound

/-! ## Section 5: The scanner -/

/-- The comments of a file are ranges of it, one after the other.  Formatting puts in each range
what was printed for the comment, or its own text if it is refused, and copies all the rest.  It
reports every comment that is refused, in order, and counts those that get another text; the file
stays as it is if there are none. -/
theorem format_splices (s : Text) :
    (docComments s).Pairwise (fun c d => c.stop ≤ d.offset) ∧
      (∀ c ∈ docComments s,
        c.stop ≤ s.byteSize ∧ s.slice c.offset c.stop = c.text ∧ IsDocComment c.text) ∧
      (format s).output = spliceFrom s DocComment.spliced 0 (docComments s) ∧
      (format s).errors = (docComments s).filterMap DocComment.error? ∧
      (format s).changed = (docComments s).countP (fun c => c.spliced ≠ c.text) ∧
      ((format s).output = s ↔ (format s).changed = 0) :=
  (sound_segments s).splices

/-- A comment that is refused and one that is not, with a character of two bytes between them. -/
theorem format_splices_refused :
    Text.slice "<?php /** @var */'é'/**  b */".toList 6 17 = "/** @var */".toList ∧
      (format "<?php /** @var */'é'/**  b */".toList).output =
        "<?php /** @var */'é'/** b */".toList ∧
      (format "<?php /** @var */'é'/**  b */".toList).changed = 1 := by
  have hdocs : docComments "<?php /** @var */'é'/**  b */".toList =
      [⟨"/** @var */".toList, 6, ⟨1, 7⟩, []⟩, ⟨"/**  b */".toList, 21, ⟨1, 21⟩, []⟩] := by
    cbv
  have hvar : Lexeme.ofText "/** @var */".toList =
      [⟨⟨.openDoc, "/**".toList, ⟨1, 1⟩⟩, []⟩, ⟨⟨.tag, "@var".toList, ⟨1, 5⟩⟩, [' ']⟩,
       ⟨⟨.closeDoc, "*/".toList, ⟨1, 10⟩⟩, [' ']⟩] := by
    cbv
  have htext : Lexeme.ofText "/**  b */".toList =
      [⟨⟨.openDoc, "/**".toList, ⟨1, 1⟩⟩, []⟩, ⟨⟨.ident, ['b'], ⟨1, 6⟩⟩, "  ".toList⟩,
       ⟨⟨.closeDoc, "*/".toList, ⟨1, 8⟩⟩, [' ']⟩] := by
    cbv
  have hrefused : DocComment.spliced ⟨"/** @var */".toList, 6, ⟨1, 7⟩, []⟩ =
      "/** @var */".toList := by
    rw [DocComment.spliced, formatComment, Comment.parse, hvar]
    rfl
  have hprinted : DocComment.spliced ⟨"/**  b */".toList, 21, ⟨1, 21⟩, []⟩ =
      "/** b */".toList := by
    rw [DocComment.spliced, formatComment, Comment.parse, htext]
    rfl
  obtain ⟨-, hranges, houtput, -, hchanged, -⟩ := format_splices "<?php /** @var */'é'/**  b */".toList
  rw [hdocs] at hranges houtput hchanged
  refine ⟨(hranges _ List.mem_cons_self).2.1, ?_, ?_⟩
  · rw [houtput]
    simp only [spliceFrom, hrefused, hprinted]
    cbv
  · rw [hchanged, List.countP_cons, List.countP_singleton, hrefused, hprinted]
    rfl

end Source

end Docblock
