import Docblock.Comment.Parser
import Docblock.Proofs.TypeExpr.Displacement

/-!
# Lines that stand elsewhere

What the readers of types do when their lexemes are moved carries over to the tags and lines of a
comment: a line that stands elsewhere is read as the same line, and refused for the same reason.

## Contents

1. `Tag.read_moved`: tags.
2. `Fault.toError_moved`: refusals.
3. `Line.read_moved_of_ok`, `Line.read_moved_of_error`: lines.
-/

namespace Docblock

variable {f : Token → Position}

/-! ## Section 1: Tags -/

namespace Tag

open Reader

/-- The text at the end of a line does not tell where it stands. -/
@[simp] theorem restOfLine_moved (ts : List Lexeme) :
    restOfLine (ts.map (Lexeme.moved f)) = restOfLine ts := by
  rw [restOfLine, Lexeme.source_moved, restOfLine]

/-- What may stand in front of the parameters of a method. -/
theorem blind_methodHead (isStatic : Bool) (first : TypeExpr) :
    Blind (methodHead isStatic first) := by
  intro f ts
  unfold methodHead
  rw [at?_moved]
  -- what stands before a parenthesis is the name of the method, and has to be a single name
  split
  · split
    · split
      · rfl
      · exact expecting_moved _ ts
    · exact expecting_moved _ ts
  · apply expect_bind_moved
    intro name rest
    rfl

/-- A whole method is read without a look at positions. -/
theorem blind_readMethod : Blind readMethod := by
  intro f ts
  unfold readMethod
  simp only [skip_moved]
  apply bind_moved (TypeExpr.blind_reader f _)
  intro first rest
  apply bind_moved (blind_methodHead _ first f rest)
  rintro ⟨isStatic, result, name⟩ rest
  apply expect_bind_moved
  intro paren rest
  apply bind_moved (TypeExpr.blind_signature TypeExpr.blind_reader f rest)
  intro params rest
  simp only [skip_moved]
  rcases skip .colon rest with ⟨colon, rest⟩
  cases colon with
  | false => rfl
  | true =>
    -- a result behind the parameters is refused, at the lexeme behind the colon
    simp only [List.head?_map]
    rfl

/-- A variable that may be left out is looked for by its kind. -/
theorem optionalVar_moved (ts : List Lexeme) :
    optionalVar (ts.map (Lexeme.moved f)) =
      ((optionalVar ts).1, (optionalVar ts).2.map (Lexeme.moved f)) := by
  cases ts with
  | nil => rfl
  | cons t ts =>
    rw [List.map_cons, optionalVar, optionalVar, Lexeme.moved_kind]
    split <;> rfl

theorem any_isBoundWord_moved (ts : List Lexeme) :
    (ts.map (Lexeme.moved f)).head?.any isBoundWord = ts.head?.any isBoundWord := by
  cases ts <;> rfl

/-- A tag is read alike elsewhere.  In each case what is left on the line ends up in the tag, as its
description, so that nothing of the tag has to be moved. -/
theorem readStructured_moved (keyword : Keyword) (ts : List Lexeme) :
    readStructured keyword (ts.map (Lexeme.moved f)) = movedBy f id (readStructured keyword ts) := by
  cases keyword with
  | param =>
    apply bind_moved (TypeExpr.blind_tagParam TypeExpr.blind_reader f ts)
    intro p rest
    simp only [restOfLine_moved]
    rfl
  | typed keyword =>
    apply bind_moved (TypeExpr.blind_reader f ts)
    intro ty rest
    simp only [restOfLine_moved]
    rfl
  | property access =>
    apply bind_moved (TypeExpr.blind_reader f ts)
    intro ty rest
    apply expect_bind_moved
    intro v rest
    simp only [restOfLine_moved]
    rfl
  | method =>
    apply bind_moved (blind_readMethod f ts)
    intro m rest
    simp only [restOfLine_moved]
    rfl
  | var =>
    apply bind_moved (TypeExpr.blind_reader f ts)
    intro ty rest
    simp only [optionalVar_moved, restOfLine_moved]
    rfl
  | template =>
    apply expect_bind_moved
    intro name rest
    simp only [any_isBoundWord_moved, restOfLine_moved, ← List.map_tail]
    -- without the word for a bound, the rest of the line is the description
    split
    · apply bind_moved (TypeExpr.blind_reader f _)
      intro bound rest
      simp only [restOfLine_moved]
      rfl
    · rfl
  | «alias» =>
    apply expect_bind_moved
    intro name rest
    simp only [skip_moved]
    apply bind_moved (TypeExpr.blind_reader f _)
    intro ty rest
    simp only [restOfLine_moved]
    rfl

/-- A name that is put together from lexemes without gaps is the same elsewhere. -/
theorem gluedName_moved (ts : List Lexeme) :
    gluedName (ts.map (Lexeme.moved f)) =
      ((gluedName ts).1, (gluedName ts).2.1, (gluedName ts).2.2.map (Lexeme.moved f)) := by
  induction ts with
  | nil => rfl
  | cons t ts ih =>
    simp only [List.map_cons, gluedName, Lexeme.isGlued_moved, Lexeme.moved_text, ih]
    split
    · split <;> rfl
    · rfl

/-- Any tag is read alike elsewhere, whether it is known or not. -/
theorem read_moved (t : Lexeme) (rest : List Lexeme) :
    read (t.moved f) (rest.map (Lexeme.moved f)) = movedBy f id (read t rest) := by
  have hglued : (rest.map (Lexeme.moved f)).head?.any Lexeme.isGlued =
      rest.head?.any Lexeme.isGlued := by
    cases rest <;> rfl
  unfold read
  simp only [Lexeme.moved_text, hglued, gluedName_moved]
  -- only a tag whose keyword stands alone and is known has a structure
  split
  · simp only [unstructured, Lexeme.source_moved]
    rfl
  · split
    · exact readStructured_moved _ rest
    · simp only [unstructured, Lexeme.source_moved]
      rfl

end Tag

/-! ## Section 2: Refusals -/

/-- The token that a refusal is about, on a line that `stop` ends. -/
def Fault.token (stop : Token) (fault : Fault) : Token :=
  (fault.found.map Lexeme.toToken).getD stop

theorem Fault.token_moved (stop : Token) (fault : Fault) :
    (fault.moved f).token (stop.moved f) = (fault.token stop).moved f := by
  obtain ⟨reason, found⟩ := fault
  cases found <;> rfl

/-- Messages do not tell where a token stands. -/
theorem Reason.message_moved (t : Token) (reason : Reason) :
    reason.message (t.moved f) = reason.message t := by
  cases reason <;> rfl

/-- A refusal elsewhere has the same message, and the place to which its token was moved. -/
theorem Fault.toError_moved (stop : Token) (fault : Fault) :
    (fault.moved f).toError (stop.moved f) =
      ⟨f (fault.token stop), fault.reason.message (fault.token stop)⟩ := by
  have hfound : (fault.moved f).toError (stop.moved f) =
      ⟨((fault.moved f).token (stop.moved f)).pos,
        fault.reason.message ((fault.moved f).token (stop.moved f))⟩ := rfl
  rw [hfound, Fault.token_moved, Reason.message_moved]
  rfl

/-! ## Section 3: Lines -/

/-- A line in its new place. -/
def SourceLine.moved (f : Token → Position) (line : SourceLine) : SourceLine :=
  ⟨line.words.map (Lexeme.moved f), line.stop.moved f⟩

theorem Line.dropMarker_moved (ts : List Lexeme) :
    dropMarker (ts.map (Lexeme.moved f)) = (dropMarker ts).map (Lexeme.moved f) := by
  cases ts with
  | nil => rfl
  | cons t ts =>
    rw [List.map_cons, dropMarker, dropMarker, Lexeme.moved_kind]
    split <;> rfl

namespace Line

/-- A line is refused only at its tag. -/
theorem read_eq_error_iff {line : SourceLine} {e : SyntaxError} :
    read line = .error e ↔ ∃ t rest fault, dropMarker line.words = t :: rest ∧ t.kind = .tag ∧
      Tag.read t rest = .error fault ∧ e = fault.toError line.stop := by
  constructor
  · intro h
    unfold read at h
    split at h
    · next t rest hwords =>
      split at h
      · next ht =>
        split at h
        · cases h
        · next fault hread => exact ⟨t, rest, fault, hwords, ht, hread, (Except.error.inj h).symm⟩
      · cases h
    · cases h
  · rintro ⟨t, rest, fault, hwords, ht, hread, rfl⟩
    unfold read
    rw [hwords]
    simp only [ht, if_true, hread]

/-- A line that is read here is read alike elsewhere. -/
theorem read_moved_of_ok {line : SourceLine} {l : Line} (h : read line = .ok l)
    (f : Token → Position) : read (line.moved f) = .ok l := by
  unfold read SourceLine.moved at *
  rw [dropMarker_moved]
  cases hwords : dropMarker line.words with
  | nil =>
    rw [hwords] at h
    exact h
  | cons t rest =>
    rw [hwords] at h
    simp only [List.map_cons, Lexeme.moved_kind] at h ⊢
    by_cases ht : t.kind = .tag
    · simp only [ht, if_true, Tag.read_moved] at h ⊢
      cases hread : Tag.read t rest with
      | ok tag =>
        -- a tag that is read has no lexemes in it, so the move leaves no trace
        rw [hread] at h
        exact h
      | error fault =>
        rw [hread] at h
        cases h
    · -- a line without a tag is its text
      simp only [ht, if_false] at h ⊢
      rw [← h, ← Tag.restOfLine_moved (f := f) (t :: rest)]
      rfl

/-- A line that is refused here is refused elsewhere, at the same token and with the same
message. -/
theorem read_moved_of_error {line : SourceLine} {t : Lexeme} {rest : List Lexeme} {fault : Fault}
    (hwords : dropMarker line.words = t :: rest) (ht : t.kind = .tag)
    (hread : Tag.read t rest = .error fault) (f : Token → Position) :
    read (line.moved f) =
      .error ⟨f (fault.token line.stop), fault.reason.message (fault.token line.stop)⟩ := by
  rw [read_eq_error_iff]
  refine ⟨t.moved f, rest.map (Lexeme.moved f), fault.moved f, ?_, ht, ?_, ?_⟩
  · rw [SourceLine.moved, dropMarker_moved, hwords]
    rfl
  · rw [Tag.read_moved, hread]
    rfl
  · exact (Fault.toError_moved line.stop fault).symm

end Line

end Docblock
