import Docblock.Proofs.Comment.Braces
import Docblock.Source.Scanner
import Docblock.Source.Piece

/-!
# What is assumed of a lexer

Which parts of a file are doc comments is for the lexer of the language to say.  What formatting and
checking do to a file can be told from two properties of the lexer alone: that it divides the file
at doc comments, each of which ends at its first delimiter, and that it does not look into the
comments, so that others may take their place.  They are the hypotheses here, under the names
`Locator.Sound` and `Locator.Steady`; nothing else of a lexer is used.

1. `IsDocComment`: the texts that are read as one doc comment.
2. `Replaces`: what may take the place of a segment.
3. `Locator.Sound`, `Locator.Steady`: the assumptions.
-/

namespace Docblock.Source

open Text (NoClose braces)

/-! ## Section 1: Texts of doc comments -/

/-- A text that is read as one doc comment: it opens as one, and closes at its end. -/
def IsDocComment (t : Text) : Prop :=
  ∃ d z, isDocSpace d = true ∧ NoClose ('*' :: d :: z ++ ['*']) ∧
    t = '/' :: '*' :: ('*' :: d :: z ++ "*/".toList)

namespace IsDocComment

variable {t u x y : Text}

/-- A doc comment has no delimiter before its end. -/
theorem closes (h : IsDocComment t) : ∀ a b, t = a ++ "*/".toList ++ b → b = [] := by
  obtain ⟨d, z, hopen, hclose, rfl⟩ := h
  -- the two characters of the opening that `NoClose` is not told about cannot close it either
  have hall : NoClose ('/' :: '*' :: ('*' :: d :: z ++ ['*'])) :=
    List.isChain_cons_cons.mpr ⟨by simp, List.isChain_cons_cons.mpr ⟨by simp, hclose⟩⟩
  have htext : '/' :: '*' :: ('*' :: d :: z ++ "*/".toList) =
      '/' :: '*' :: ('*' :: d :: z ++ ['*']) ++ ['/'] := by
    simp
  rw [htext]
  exact Text.noClose_iff.mp hall

/-- The converse: what opens and closes as a doc comment, and has no delimiter in between, is one. -/
theorem of_closes {d : Char} {z : Text} (hopen : isDocSpace d = true)
    (hclose : ∀ a b, "/**".toList ++ d :: z ++ "*/".toList = a ++ "*/".toList ++ b → b = []) :
    IsDocComment ("/**".toList ++ d :: z ++ "*/".toList) := by
  have htext : "/**".toList ++ d :: z ++ "*/".toList =
      '/' :: '*' :: ('*' :: d :: z ++ ['*']) ++ ['/'] := by
    simp
  rw [htext] at hclose
  have hall := Text.noClose_iff.mpr hclose
  exact ⟨d, z, hopen, List.IsChain.tail (List.IsChain.tail hall), rfl⟩

theorem opens (h : IsDocComment t) : ∃ rest, t = "/**".toList ++ rest := by
  obtain ⟨d, z, -, -, rfl⟩ := h
  exact ⟨d :: z ++ "*/".toList, rfl⟩

theorem three_le_length (h : IsDocComment t) : 3 ≤ t.length := by
  obtain ⟨rest, rfl⟩ := h.opens
  simp

theorem exists_append_close (h : IsDocComment t) : ∃ z, t = z ++ "*/".toList := by
  obtain ⟨d, z, -, -, rfl⟩ := h
  exact ⟨'/' :: '*' :: '*' :: d :: z, rfl⟩

/-- No doc comment goes on as another one. -/
theorem eq_of_append (ht : IsDocComment t) (hu : IsDocComment u) (h : t ++ x = u ++ y) :
    t = u := by
  -- a longer one would have the delimiter of the shorter one inside
  rcases List.append_eq_append_iff.mp h with ⟨w, hw, -⟩ | ⟨w, hw, -⟩
  · obtain ⟨z, rfl⟩ := ht.exists_append_close
    rw [hu.closes z w hw, List.append_nil] at hw
    exact hw.symm
  · obtain ⟨z, rfl⟩ := hu.exists_append_close
    rw [ht.closes z w hw, List.append_nil] at hw
    exact hw

end IsDocComment

/-! ## Section 2: Replaced segments -/

/-- The text of neighbouring segments. -/
def joined (xs : List Segment) : Text :=
  xs.flatMap Segment.text

@[simp] theorem joined_nil : joined [] = [] := rfl

@[simp] theorem joined_cons (a : Segment) (xs : List Segment) :
    joined (a :: xs) = a.text ++ joined xs := rfl

/-- The second segment may take the place of the first. -/
inductive Replaces : Segment → Segment → Prop where
  | same (t : Text) : Replaces ⟨false, t⟩ ⟨false, t⟩
  | doc {t u : Text} (ht : IsDocComment t) (hu : IsDocComment u) (hbraces : braces t = braces u) :
      Replaces ⟨true, t⟩ ⟨true, u⟩

/-- Segments that make up the same file are the same, if one may take the place of the other. -/
theorem joined_injective {xs ys : List Segment} (h : List.Forall₂ Replaces xs ys)
    (heq : joined xs = joined ys) : xs = ys := by
  induction h with
  | nil => rfl
  | cons hab _ ih =>
    rw [joined_cons, joined_cons] at heq
    cases hab with
    | same t => rw [ih (List.append_cancel_left heq)]
    | doc ht hu _ =>
      -- both comments end at the first delimiter of the same text
      obtain rfl := ht.eq_of_append hu heq
      rw [ih (List.append_cancel_left heq)]

/-! ## Section 3: The assumptions -/

namespace Locator

/-- What a lexer does with a file: it divides the file, so that the comments are ranges one after the
other, and what it takes for a doc comment opens and closes as one. -/
structure Sound (find : Locator) (s : Text) : Prop where
  /-- The segments make up the file. -/
  joined : Source.joined (find s) = s
  /-- A doc comment opens with `/**` and white space, and ends at the first `*/`. -/
  isDocComment : ∀ a ∈ find s, a.isDoc = true → IsDocComment a.text

/-- A lexer takes no notice of the bodies of the comments of a file: where others take their place,
it finds those, and divides the rest of the file as before.  Nothing is asked about comments with
other braces, which may be counted in a string. -/
def Steady (find : Locator) (s : Text) : Prop :=
  ∀ ys, List.Forall₂ Replaces (find s) ys → find (Source.joined ys) = ys

end Locator

end Docblock.Source
