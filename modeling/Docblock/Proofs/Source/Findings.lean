import Docblock.Diagnostic
import Docblock.Proofs.Comment.Refusal
import Docblock.Proofs.Source.Ranges

/-!
# What is found in a file

Formatting a file and checking it find the same errors, and give them the same places.  A file is
checked in two rounds, one for the errors and one for the comments that are not formatted, and what
they find is sorted by position.  This is the order of the comments: an error stands inside the
comment that it is about.  Only the end of a comment may be where the next one begins, and there the
error comes first.

## Contents

1. `Diagnostic.Precedes`: the order of diagnostics, and lists that are sorted already.
2. `DocComment.finding?`: what there is to report about one comment.
3. `precedes_of_follows`: what is found in a comment comes before what is found in the next.
4. `Locator.Sound.check_eq_findings`: the findings of a file, for any lexer.
5. `Locator.Sound.positions`: where comments and errors stand in a file.
6. `check_agrees_with_format`, `positions_exact`: the same for the scanner.
-/

namespace Docblock

/-! ## Section 1: The order of diagnostics -/

namespace Diagnostic

/-- A diagnostic comes before another one: it stands further up, or it is an error beside a
warning. -/
def Precedes (a b : Diagnostic) : Prop :=
  a.pos.Before b.pos ∨ a.pos = b.pos ∧ a.severity = .error ∧ b.severity = .warning

/-- The order, case by case. -/
theorem le_iff {a b : Diagnostic} : le a b = true ↔
    a.pos.Before b.pos ∨ a.pos = b.pos ∧ (a.severity = .error ∨ b.severity = .warning) := by
  obtain ⟨⟨line, column⟩, problem⟩ := a
  obtain ⟨⟨line', column'⟩, problem'⟩ := b
  unfold le Position.Before
  split
  · next hline => simp_all
  · split
    · next hcolumn => simp_all
    · simp_all

theorem le_trans {a b c : Diagnostic} (hab : le a b = true) (hbc : le b c = true) :
    le a c = true := by
  rw [le_iff] at *
  rcases hab with hab | ⟨hab, hleft⟩
  · -- the first is earlier
    rcases hbc with hbc | ⟨hbc, -⟩
    · exact .inl (hab.trans hbc)
    · exact .inl (hbc ▸ hab)
  · -- the first two are in one place
    rcases hbc with hbc | ⟨hbc, hright⟩
    · exact .inl (hab ▸ hbc)
    · refine .inr ⟨hab.trans hbc, ?_⟩
      rcases hleft with hleft | hleft
      · exact .inl hleft
      · rcases hright with hright | hright
        · rw [hleft] at hright
          cases hright
        · exact .inr hright

theorem le_total (a b : Diagnostic) : (le a b || le b a) = true := by
  rw [Bool.or_eq_true, le_iff, le_iff]
  by_cases hpos : a.pos = b.pos
  · -- in one place an error goes first, and two warnings are on a level
    cases ha : a.severity with
    | error => exact .inl (.inr ⟨hpos, .inl rfl⟩)
    | warning => exact .inr (.inr ⟨hpos.symm, .inr rfl⟩)
  · obtain ⟨⟨line, column⟩, problem⟩ := a
    obtain ⟨⟨line', column'⟩, problem'⟩ := b
    simp only [Position.mk.injEq, Position.Before] at hpos ⊢
    omega

theorem Precedes.le {a b : Diagnostic} (h : Precedes a b) : Diagnostic.le a b = true := by
  rw [le_iff]
  rcases h with hbefore | ⟨hpos, herror, -⟩
  · exact .inl hbefore
  · exact .inr ⟨hpos, .inl herror⟩

/-- No two diagnostics precede each other, so this order leaves nothing to chance. -/
theorem Precedes.not_le {a b : Diagnostic} (h : Precedes a b) : ¬Diagnostic.le b a = true := by
  rw [le_iff]
  rcases h with hbefore | ⟨hpos, herror, hwarning⟩
  · unfold Position.Before at *
    rintro (hafter | ⟨hpos, -⟩)
    · omega
    · rw [hpos] at hbefore
      omega
  · rintro (hafter | ⟨-, hb | ha⟩)
    · unfold Position.Before at hafter
      rw [hpos] at hafter
      omega
    · rw [hwarning] at hb
      cases hb
    · rw [herror] at ha
      cases ha

end Diagnostic

/-- Sorting brings diagnostics into the one order in which each comes before the next. -/
theorem Report.sort_eq_of_precedes {r : Report} {ds : List Diagnostic}
    (hperm : r.diagnostics.Perm ds) (hsorted : ds.Pairwise Diagnostic.Precedes) :
    r.sort.diagnostics = ds := by
  -- no two of them are on a level
  have hstrict : ds.Pairwise fun a b => ¬(Diagnostic.le a b = true ∧ Diagnostic.le b a = true) :=
    hsorted.imp fun h hboth => h.not_le hboth.2
  have hsymm : Std.Symm fun a b => ¬(Diagnostic.le a b = true ∧ Diagnostic.le b a = true) :=
    ⟨fun _ _ h hboth => h hboth.symm⟩
  have hmerged : (r.diagnostics.mergeSort Diagnostic.le).Perm ds :=
    (List.mergeSort_perm _ _).trans hperm
  have hmergeSort : (r.diagnostics.mergeSort Diagnostic.le).Pairwise
      fun a b => Diagnostic.le a b = true := by
    apply List.pairwise_mergeSort
    · intro a b c
      exact Diagnostic.le_trans
    · exact Diagnostic.le_total
  refine List.Perm.eq_of_pairwise ?_ hmergeSort (hsorted.imp Diagnostic.Precedes.le) hmerged
  intro a b ha hb hab hba
  -- two different ones in either order would be on a level
  by_contra hne
  exact hstrict.forall (hmerged.subset ha) hb hne ⟨hab, hba⟩

namespace Source

/-! ## Section 2: What is found in one comment -/

/-- What there is to report about a comment: its error, or that formatting would change it. -/
def DocComment.finding? (c : DocComment) : Option Diagnostic :=
  match c.error? with
  | some e => some (.ofError e)
  | none => if c.spliced = c.text then none else some ⟨c.start, .unformatted⟩

/-- Printing is never refused. -/
theorem formatComment_eq_error_iff (indent : Text) {text : Text} {e : SyntaxError} :
    formatComment indent text = .error e ↔ Comment.parse text = .error e := by
  unfold formatComment
  cases Comment.parse text <;> simp [bind, Except.bind, pure, Except.pure]

namespace DocComment

variable {c : DocComment} {e : SyntaxError} {out : Text}

/-- The error of a comment is that of reading its text, moved to where the comment stands. -/
theorem error?_eq_some_iff : c.error? = some e ↔
    ∃ e', Comment.parse c.text = .error e' ∧ e = ⟨c.start.within e'.pos, e'.message⟩ := by
  unfold error?
  cases hformat : formatComment c.indent c.text with
  -- what is formatted was parsed
  | ok out =>
    obtain ⟨comment, hparse, -⟩ := formatComment_eq_ok hformat
    simp [hparse]
  | error e' =>
    have hparse := (formatComment_eq_error_iff c.indent).mp hformat
    simp [hparse, eq_comm]

theorem error?_of_ok (h : formatComment c.indent c.text = .ok out) : c.error? = none := by
  rw [error?, h]

/-- What is refused keeps its text. -/
theorem spliced_of_error (h : c.error? = some e) : c.spliced = c.text := by
  obtain ⟨e', hparse, -⟩ := error?_eq_some_iff.mp h
  rw [spliced, (formatComment_eq_error_iff c.indent).mpr hparse]

theorem finding?_of_error (h : c.error? = some e) : c.finding? = some (.ofError e) := by
  rw [finding?, h]

theorem finding?_of_no_error (h : c.error? = none) :
    c.finding? = if c.spliced = c.text then none else some ⟨c.start, .unformatted⟩ := by
  rw [finding?, h]

end DocComment

/-- The findings of two rounds of which each passes over what the other one reports. -/
theorem filterMap_append_perm {α β : Type} (f g : α → Option β) (l : List α)
    (h : ∀ a ∈ l, f a = none ∨ g a = none) :
    (l.filterMap f ++ l.filterMap g).Perm (l.filterMap fun a => (f a).or (g a)) := by
  induction l with
  | nil => exact .nil
  | cons a l ih =>
    obtain ⟨hfirst, hrest⟩ := List.forall_mem_cons.mp h
    have hperm := ih hrest
    cases hf : f a with
    | some b =>
      have hg : g a = none := hfirst.resolve_left (by simp [hf])
      simpa [hf, hg] using hperm
    | none =>
      cases hg : g a with
      | none => simpa [hf, hg] using hperm
      | some b =>
        -- the second round reports `b` behind all that the first one reports
        simp only [List.filterMap_cons, hf, hg, Option.none_or]
        exact List.perm_middle.trans (hperm.cons b)

/-- The two rounds together find what there is to report about each comment. -/
theorem perm_findings (cs : List DocComment) :
    ((checkWellFormed cs).merge (checkFormatted cs)).diagnostics.Perm
      (cs.filterMap DocComment.finding?) := by
  unfold checkWellFormed checkFormatted
  refine (filterMap_append_perm _ _ cs ?_).trans (List.Perm.of_eq (List.filterMap_congr ?_))
  · -- a comment that is refused has no printed text that could differ
    intro c _
    cases hparse : Comment.parse c.text with
    | ok comment => exact .inl rfl
    | error e =>
      rw [(formatComment_eq_error_iff c.indent).mpr hparse]
      exact .inr rfl
  · intro c _
    cases hformat : formatComment c.indent c.text with
    -- the comment is formatted, so at most a warning is found
    | ok out =>
      obtain ⟨comment, hparse, -⟩ := formatComment_eq_ok hformat
      rw [DocComment.finding?_of_no_error (DocComment.error?_of_ok hformat),
        spliced_eq_of_ok hformat, hparse]
      rfl
    -- it is refused, so an error is
    | error e =>
      have hparse := (formatComment_eq_error_iff c.indent).mp hformat
      rw [DocComment.finding?_of_error (DocComment.error?_eq_some_iff.mpr ⟨e, hparse, rfl⟩), hparse]
      rfl

/-! ## Section 3: Findings in their order -/

/-- A finding of a comment is a warning where it begins, or an error after its first characters. -/
theorem DocComment.finding?_inside {c : DocComment} (hc : IsDocComment c.text) {a : Diagnostic}
    (h : c.finding? = some a) :
    a.severity = .warning ∧ a.pos = c.start ∨
      a.severity = .error ∧ ∃ pre post, c.text = pre ++ post ∧ pre ≠ [] ∧
        a.pos = c.start.advance pre := by
  cases herror : c.error? with
  -- a warning stands at the beginning of the comment
  | none =>
    rw [finding?_of_no_error herror] at h
    split at h
    · cases h
    · obtain rfl := Option.some.inj h
      exact .inl ⟨rfl, rfl⟩
  | some e =>
    rw [finding?_of_error herror] at h
    obtain rfl := Option.some.inj h
    obtain ⟨e', hparse, rfl⟩ := error?_eq_some_iff.mp herror
    obtain ⟨rest, hrest⟩ := hc.opens
    rw [hrest] at hparse
    obtain ⟨reason, k, t, hstands, hk, -, rfl⟩ := Comment.exists_standsAt_of_parse hparse
    obtain ⟨pre, post, hcut, rfl, hpos⟩ := hstands.exists_cut
    refine .inr ⟨rfl, pre, post, hrest.trans hcut, ?_, ?_⟩
    · -- the opening delimiter stands before the token that is named
      rintro rfl
      exact Nat.lt_irrefl 0 hk
    · have hwithin : c.start.within t.pos = c.start.advance pre := by
        rw [hpos, Position.within_advance]
      exact hwithin

/-- What is found in a comment comes before what is found in a later one. -/
theorem precedes_of_follows {c d : DocComment} (hc : IsDocComment c.text)
    (hd : IsDocComment d.text) (hfollows : Follows c d) {a b : Diagnostic}
    (ha : c.finding? = some a) (hb : d.finding? = some b) : a.Precedes b := by
  obtain ⟨gap, -, hstart⟩ := hfollows
  -- the place where the later comment begins lies between the two
  have hleft : a.pos.Before d.start ∨ a.pos = d.start ∧ a.severity = .error := by
    rcases DocComment.finding?_inside hc ha with ⟨-, hpos⟩ | ⟨herror, pre, post, htext, -, hpos⟩
    · have hne : c.text ++ gap ≠ [] := by
        have := hc.three_le_length
        intro hnil
        simp_all
      rw [hpos, hstart]
      exact .inl (c.start.before_advance hne)
    · rw [htext, List.append_assoc, Position.advance_append, ← hpos] at hstart
      rw [hstart]
      -- only an error at the end of a comment can meet the beginning of the next one
      rcases a.pos.eq_or_before_advance (post ++ gap) with heq | hbefore
      · exact .inr ⟨heq.symm, herror⟩
      · exact .inl hbefore
  -- what is found in the later comment does not stand before it
  have hright : d.start.Before b.pos ∨ d.start = b.pos ∧ b.severity = .warning := by
    rcases DocComment.finding?_inside hd hb with ⟨hwarning, hpos⟩ | ⟨-, pre, post, -, hne, hpos⟩
    · exact .inr ⟨hpos.symm, hwarning⟩
    · rw [hpos]
      exact .inl (d.start.before_advance hne)
  rcases hleft with hleft | ⟨hleft, herror⟩
  · rcases hright with hright | ⟨hright, -⟩
    · exact .inl (hleft.trans hright)
    · exact .inl (hright ▸ hleft)
  · rcases hright with hright | ⟨hright, hwarning⟩
    · exact .inl (hleft ▸ hright)
    · exact .inr ⟨hleft.trans hright, herror, hwarning⟩

/-! ## Section 4: The findings of a file -/

namespace Locator.Sound

variable {find : Locator} {s : Text} (hsound : find.Sound s)
include hsound

/-- What is found in a file is found in order. -/
theorem pairwise_findings :
    ((find.docComments s).filterMap DocComment.finding?).Pairwise Diagnostic.Precedes := by
  rw [List.pairwise_filterMap]
  refine (find.pairwise_follows s).imp_of_mem ?_
  intro c d hc hd hfollows a ha b hb
  exact precedes_of_follows (hsound.isDocComment_of_mem_docComments hc)
    (hsound.isDocComment_of_mem_docComments hd) hfollows ha hb

/-- Sorting undoes the two rounds of checking. -/
theorem diagnostics_check :
    (find.check s).diagnostics = (find.docComments s).filterMap DocComment.finding? :=
  Report.sort_eq_of_precedes (perm_findings (find.docComments s)) hsound.pairwise_findings

/-- The errors that are found are those that formatting reports. -/
theorem filter_error_check :
    (find.check s).diagnostics.filter (·.severity = .error) =
      (find.format s).errors.map Diagnostic.ofError := by
  rw [hsound.diagnostics_check, errors_format, List.filter_filterMap, List.map_filterMap]
  apply List.filterMap_congr
  intro c _
  cases herror : c.error? with
  | some e =>
    rw [DocComment.finding?_of_error herror]
    rfl
  | none =>
    rw [DocComment.finding?_of_no_error herror]
    split <;> rfl

/-- There are as many warnings as comments that get another text. -/
theorem warningCount_check : (find.check s).warningCount = (find.format s).changed := by
  unfold Report.warningCount Report.count
  rw [hsound.diagnostics_check, changed_format, List.countP_filterMap]
  apply List.countP_congr
  intro c _
  cases herror : c.error? with
  | some e =>
    -- an error is no warning, and what is refused keeps its text
    rw [DocComment.finding?_of_error herror, DocComment.spliced_of_error herror]
    simp [Diagnostic.ofError, Diagnostic.severity]
  | none =>
    rw [DocComment.finding?_of_no_error herror]
    split
    · next hsame => simp [hsame]
    · next hother => simp [hother, Diagnostic.severity]

/-- There is nothing to report if formatting reports nothing and changes nothing. -/
theorem isOk_check_iff :
    (find.check s).isOk = true ↔ (find.format s).errors = [] ∧ (find.format s).output = s := by
  unfold Report.isOk
  rw [List.isEmpty_iff, hsound.diagnostics_check, errors_format, hsound.output_format_eq_self_iff,
    List.filterMap_eq_nil_iff, List.filterMap_eq_nil_iff, ← forall₂_and]
  refine forall₂_congr fun c _ => ?_
  cases herror : c.error? with
  | some e => simp [DocComment.finding?_of_error herror]
  | none => simp [DocComment.finding?_of_no_error herror]

/-- Checking a file finds in each comment, one after the other, the error that formatting records
for it, or that formatting would change it, or nothing. -/
theorem check_eq_findings :
    (find.check s).diagnostics = (find.docComments s).filterMap DocComment.finding? ∧
      (find.check s).diagnostics.filter (·.severity = .error) =
        (find.format s).errors.map Diagnostic.ofError ∧
      (find.check s).errorCount = (find.format s).errors.length ∧
      (find.check s).warningCount = (find.format s).changed ∧
      ((find.check s).isOk = true ↔
        (find.format s).errors = [] ∧ (find.format s).output = s) := by
  refine ⟨hsound.diagnostics_check, hsound.filter_error_check, ?_, hsound.warningCount_check,
    hsound.isOk_check_iff⟩
  have hcount := congrArg List.length hsound.filter_error_check
  rw [List.length_map, ← List.countP_eq_length_filter] at hcount
  exact hcount

/-! ## Section 5: Positions in a file -/

section Comment

variable {c : DocComment} (hc : c ∈ find.docComments s)
include hc

/-- A comment begins at the position of its first byte. -/
theorem start_eq_ofOffset : c.start = Position.ofOffset s c.offset := by
  obtain ⟨before, after, rfl, hoffset, hstart⟩ := hsound.exists_of_mem_docComments hc
  rw [hstart, hoffset, Position.ofOffset_append]

/-- A place inside a comment, as a place in the file. -/
theorem within_eq_ofOffset {pre post : Text} (h : c.text = pre ++ post) :
    c.start.within (Position.ofOffset c.text (Text.byteSize pre)) =
      Position.ofOffset s (c.offset + Text.byteSize pre) := by
  obtain ⟨before, after, rfl, hoffset, hstart⟩ := hsound.exists_of_mem_docComments hc
  have hwithin := Position.within_ofOffset before pre post after
  rw [← h, List.append_assoc] at hwithin
  rw [hstart, hoffset, hwithin]

/-- The error of a comment stands where, in the file, the token stands at which reading stopped. -/
theorem exists_token_of_error {e : SyntaxError} (h : c.error? = some e) :
    ∃ reason k t, Token.StandsAt c.text k t ∧
      Comment.StopsAt (Token.stopOf c.text) (Lexeme.ofText c.text).tail reason t ∧
      Comment.parse c.text = .error ⟨t.pos, reason.message t⟩ ∧
      e = ⟨Position.ofOffset s (c.offset + k), reason.message t⟩ := by
  obtain ⟨e', hparse, rfl⟩ := DocComment.error?_eq_some_iff.mp h
  -- what is known about refusals asks for a text that opens a comment
  obtain ⟨rest, hrest⟩ := (hsound.isDocComment_of_mem_docComments hc).opens
  have hrefused := hparse
  rw [hrest] at hrefused
  obtain ⟨reason, k, t, hstands, -, hstops, rfl⟩ := Comment.exists_standsAt_of_parse hrefused
  rw [← hrest] at hstands hstops
  refine ⟨reason, k, t, hstands, hstops, hparse, ?_⟩
  -- the place of the token in the comment is one in the file
  have hpos : c.start.within t.pos = Position.ofOffset s (c.offset + k) := by
    rw [hstands.pos_eq]
    obtain ⟨pre, post, hcut, rfl, -⟩ := hstands.exists_cut
    exact hsound.within_eq_ofOffset hc hcut
  rw [hpos]

end Comment

/-- A comment begins at the position of its range, and every place inside it has, moved to the file,
the position of its offset there.  An error has the position of the token at which reading stopped,
or of the end of the comment. -/
theorem positions :
    (∀ c ∈ find.docComments s, c.start = Position.ofOffset s c.offset ∧
      (∀ pre post, c.text = pre ++ post →
        c.start.within (Position.ofOffset c.text (Text.byteSize pre)) =
          Position.ofOffset s (c.offset + Text.byteSize pre)) ∧
      ∀ e, c.error? = some e → ∃ reason k t, Token.StandsAt c.text k t ∧
        Comment.StopsAt (Token.stopOf c.text) (Lexeme.ofText c.text).tail reason t ∧
        Comment.parse c.text = .error ⟨t.pos, reason.message t⟩ ∧
        e = ⟨Position.ofOffset s (c.offset + k), reason.message t⟩) ∧
      (find.format s).errors = (find.docComments s).filterMap DocComment.error? ∧
      (find.check s).diagnostics.filter (·.severity = .error) =
        ((find.docComments s).filterMap DocComment.error?).map Diagnostic.ofError := by
  refine ⟨?_, errors_format find s, ?_⟩
  · intro c hc
    refine ⟨hsound.start_eq_ofOffset hc, ?_, ?_⟩
    · intro pre post hcut
      exact hsound.within_eq_ofOffset hc hcut
    · intro e he
      exact hsound.exists_token_of_error hc he
  · rw [hsound.filter_error_check, errors_format]

end Locator.Sound

/-! ## Section 6: The scanner -/

/-- Checking a file finds in each comment, one after the other, the error that formatting records
for it, or that formatting would change it, or nothing. -/
theorem check_agrees_with_format (s : Text) :
    (check s).diagnostics = (docComments s).filterMap DocComment.finding? ∧
      (check s).diagnostics.filter (·.severity = .error) =
        (format s).errors.map Diagnostic.ofError ∧
      (check s).errorCount = (format s).errors.length ∧
      (check s).warningCount = (format s).changed ∧
      ((check s).isOk = true ↔ (format s).errors = [] ∧ (format s).output = s) :=
  (sound_segments s).check_eq_findings

/-- A comment begins at the position of its range, and every place inside it has, moved to the file,
the position of its offset there.  An error has the position of the token at which reading stopped,
or of the end of the comment. -/
theorem positions_exact (s : Text) :
    (∀ c ∈ docComments s, c.start = Position.ofOffset s c.offset ∧
      (∀ pre post, c.text = pre ++ post →
        c.start.within (Position.ofOffset c.text (Text.byteSize pre)) =
          Position.ofOffset s (c.offset + Text.byteSize pre)) ∧
      ∀ e, c.error? = some e → ∃ reason k t, Token.StandsAt c.text k t ∧
        Comment.StopsAt (Token.stopOf c.text) (Lexeme.ofText c.text).tail reason t ∧
        Comment.parse c.text = .error ⟨t.pos, reason.message t⟩ ∧
        e = ⟨Position.ofOffset s (c.offset + k), reason.message t⟩) ∧
      (format s).errors = (docComments s).filterMap DocComment.error? ∧
      (check s).diagnostics.filter (·.severity = .error) =
        ((docComments s).filterMap DocComment.error?).map Diagnostic.ofError :=
  (sound_segments s).positions

/-- An error on the line of other code, behind characters that take several bytes. -/
theorem positions_exact_wide :
    ∃ reason k t, Token.StandsAt "/** @param ž */".toList k t ∧
      Comment.StopsAt (Token.stopOf "/** @param ž */".toList)
        (Lexeme.ofText "/** @param ž */".toList).tail reason t ∧
      Comment.parse "/** @param ž */".toList = .error ⟨t.pos, reason.message t⟩ ∧
      (⟨⟨1, 23⟩, "expecting Var, found */".toList⟩ : SyntaxError) =
        ⟨Position.ofOffset "<?php'é';/** @param ž */".toList (10 + k), reason.message t⟩ := by
  have hdocs : docComments "<?php'é';/** @param ž */".toList =
      [⟨"/** @param ž */".toList, 10, ⟨1, 10⟩, []⟩] := by
    cbv
  have hts : Lexeme.ofText "/** @param ž */".toList =
      [⟨⟨.openDoc, "/**".toList, ⟨1, 1⟩⟩, []⟩, ⟨⟨.tag, "@param".toList, ⟨1, 5⟩⟩, [' ']⟩,
       ⟨⟨.ident, ['ž'], ⟨1, 12⟩⟩, [' ']⟩, ⟨⟨.closeDoc, "*/".toList, ⟨1, 14⟩⟩, [' ']⟩] := by
    cbv
  have hparse : Comment.parse "/** @param ž */".toList =
      .error ⟨⟨1, 14⟩, "expecting Var, found */".toList⟩ := by
    rw [Comment.parse, hts]
    rfl
  have hmem : (⟨"/** @param ž */".toList, 10, ⟨1, 10⟩, []⟩ : DocComment) ∈
      docComments "<?php'é';/** @param ž */".toList := by
    rw [hdocs]
    exact List.mem_cons_self
  refine ((positions_exact _).1 _ hmem).2.2 _ ?_
  exact DocComment.error?_eq_some_iff.mpr ⟨_, hparse, rfl⟩

end Source

end Docblock
