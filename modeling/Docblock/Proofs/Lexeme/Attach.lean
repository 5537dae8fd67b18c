import Docblock.Lexeme
import Mathlib.Data.List.Basic

/-!
# Tokens and the gaps before them

Tokens become lexemes one after the other: blanks are gathered until a token comes that is none, and
that token takes them as its gap.  So the lexemes of some tokens can be cut wherever such a token
stands, and only the first gap depends on what was gathered before.

## Contents

1. `attachFrom_blanks`: blanks in front of other tokens.
2. `exists_attachFrom_append`, `exists_attachFrom_glued`, `exists_of_attachFrom_cons`: the cut at a
   token.
3. `closeFirst`: lexemes whose first gap does not count.
-/

namespace Docblock

/-- Do blanks stand at the end of some tokens? -/
def Token.endsBlank (ts : List Token) : Bool :=
  ts.getLast?.any (·.kind == .blank)

namespace Lexeme

variable {gap : Text} {ts rest blanks : List Token} {t : Token}

/-! ## Section 1: Blanks -/

theorem attachFrom_solid (ht : t.kind ≠ .blank) (gap : Text) (ts : List Token) :
    attachFrom gap (t :: ts) = ⟨t, gap⟩ :: attachFrom [] ts := by
  rw [attachFrom, if_neg ht]

/-- Blanks go into the gap. -/
theorem attachFrom_blanks (hblanks : ∀ b ∈ blanks, b.kind = .blank) (gap : Text)
    (ts : List Token) :
    attachFrom gap (blanks ++ ts) = attachFrom (gap ++ blanks.flatMap (·.text)) ts := by
  induction blanks generalizing gap with
  | nil => simp
  | cons b blanks ih =>
    obtain ⟨hb, hblanks⟩ := List.forall_mem_cons.mp hblanks
    rw [List.cons_append, attachFrom, if_pos hb, ih hblanks]
    simp

/-- There are no more lexemes than tokens. -/
theorem length_attachFrom_le (gap : Text) (ts : List Token) :
    (attachFrom gap ts).length ≤ ts.length := by
  induction ts generalizing gap with
  | nil => exact Nat.le_refl _
  | cons t ts ih =>
    rw [attachFrom]
    split
    · exact Nat.le_succ_of_le (ih _)
    · exact Nat.succ_le_succ (ih _)

/-! ## Section 2: Cuts -/

/-- A token that is no blank takes the blanks before it, and leaves none to the tokens behind. -/
theorem exists_attachFrom_append (ht : t.kind ≠ .blank) (gap : Text) (ts rest : List Token) :
    ∃ gap', attachFrom gap (ts ++ t :: rest) =
      attachFrom gap ts ++ ⟨t, gap'⟩ :: attachFrom [] rest := by
  induction ts generalizing gap with
  | nil => exact ⟨gap, by simp [attachFrom, ht]⟩
  -- a blank is gathered, any other token is a lexeme
  | cons u ts ih =>
    rw [List.cons_append, attachFrom, attachFrom]
    split
    · exact ih _
    · obtain ⟨gap', hgap⟩ := ih []
      exact ⟨gap', by rw [hgap, List.cons_append]⟩

/-- A blank before a token ends the gap of its lexeme. -/
theorem exists_attachFrom_of_blank {b : Token} (hb : b.kind = .blank) (ht : t.kind ≠ .blank)
    (gap : Text) (ts rest : List Token) :
    ∃ front gap', attachFrom gap (ts ++ b :: t :: rest) =
      front ++ ⟨t, gap' ++ b.text⟩ :: attachFrom [] rest := by
  induction ts generalizing gap with
  -- the blank stands right before the token
  | nil => exact ⟨[], gap, by simp [attachFrom, hb, ht]⟩
  | cons u ts ih =>
    rw [List.cons_append, attachFrom]
    split
    · exact ih _
    · obtain ⟨front, gap', h⟩ := ih []
      exact ⟨⟨u, gap⟩ :: front, gap', by rw [h, List.cons_append]⟩

/-- A token is glued to the one before it if that one is no blank. -/
theorem exists_attachFrom_glued (hts : ∀ u ∈ ts, u.text ≠ []) (ht : t.kind ≠ .blank)
    (rest : List Token) :
    ∃ front gap', attachFrom [] (ts ++ t :: rest) = front ++ ⟨t, gap'⟩ :: attachFrom [] rest ∧
      gap'.isEmpty = !Token.endsBlank ts := by
  rcases List.eq_nil_or_concat' ts with rfl | ⟨ts, b, rfl⟩
  · exact ⟨[], [], attachFrom_solid ht [] rest, rfl⟩
  · have hb : b.text ≠ [] := hts b (by simp)
    rw [List.append_assoc, List.singleton_append, Token.endsBlank, List.getLast?_concat]
    -- the last token before decides whether there is a gap
    by_cases hblank : b.kind = .blank
    · obtain ⟨front, gap', h⟩ := exists_attachFrom_of_blank hblank ht [] ts rest
      exact ⟨front, gap' ++ b.text, h, by simp [hblank, hb]⟩
    · obtain ⟨gap', h⟩ := exists_attachFrom_append hblank [] ts (t :: rest)
      refine ⟨attachFrom [] ts ++ [⟨b, gap'⟩], [], ?_, by simp [hblank]⟩
      rw [h, attachFrom_solid ht, List.append_assoc, List.singleton_append]

/-- The first lexeme of some tokens and the tokens behind it. -/
theorem exists_of_attachFrom_cons {t : Lexeme} {us : List Lexeme}
    (h : attachFrom gap ts = t :: us) :
    ∃ blanks more, ts = blanks ++ t.toToken :: more ∧ us = ofTokens more ∧
      ∀ b ∈ blanks, b.kind = .blank := by
  induction ts generalizing gap with
  | nil => cases h
  | cons u ts ih =>
    -- blanks come first, and then the token of the lexeme
    by_cases hblank : u.kind = .blank
    · rw [attachFrom, if_pos hblank] at h
      obtain ⟨blanks, more, rfl, rfl, hblanks⟩ := ih h
      exact ⟨u :: blanks, more, rfl, rfl, List.forall_mem_cons.mpr ⟨hblank, hblanks⟩⟩
    · rw [attachFrom, if_neg hblank] at h
      obtain ⟨rfl, rfl⟩ := List.cons.inj h
      exact ⟨[], ts, rfl, rfl, by simp⟩

/-! ## Section 3: The first gap -/

/-- The lexemes with nothing before the first. -/
def closeFirst : List Lexeme → List Lexeme
  | [] => []
  | t :: ts => t.closeUp :: ts

theorem length_closeFirst (ts : List Lexeme) : (closeFirst ts).length = ts.length := by
  cases ts <;> rfl

/-- What has been skipped is part of the first gap. -/
theorem prefix_gap_attachFrom (gap : Text) (ts : List Token) :
    ∀ t ∈ (attachFrom gap ts).head?, gap <+: t.gap := by
  induction ts generalizing gap with
  | nil => simp [attachFrom]
  | cons u ts ih =>
    rw [attachFrom]
    split
    · exact fun t ht => (List.prefix_append gap u.text).trans (ih _ t ht)
    · rintro t ⟨⟩
      exact List.prefix_rfl

/-- A lexeme is glued if its token is the first of all. -/
theorem exists_cons_of_attachFrom {t : Lexeme} {us : List Lexeme}
    (hblank : ∀ b ∈ ts, b.kind = .blank → b.text ≠ []) (h : attachFrom [] ts = t :: us) :
    if t.isGlued then ∃ more, ts = t.toToken :: more ∧ attachFrom [] more = us
    else ∃ b more, ts = b :: more ∧ b.kind = .blank := by
  cases ts with
  | nil => cases h
  | cons b more =>
    by_cases hb : b.kind = .blank
    · have hgap := prefix_gap_attachFrom ([] ++ b.text) more
      rw [attachFrom, if_pos hb] at h
      rw [h] at hgap
      -- the gap begins with the text of the blank
      have hglued : t.isGlued = false := by
        rw [isGlued, List.isEmpty_eq_false_iff]
        intro hnil
        have hpre := hgap t rfl
        rw [hnil, List.nil_append, List.prefix_nil] at hpre
        exact hblank b List.mem_cons_self hb hpre
      rw [hglued]
      exact ⟨b, more, rfl, hb⟩
    · rw [attachFrom_solid hb] at h
      obtain ⟨rfl, rfl⟩ := List.cons.inj h
      exact ⟨more, rfl, rfl⟩

/-- What was gathered before some tokens adds nothing but to the first gap. -/
theorem closeFirst_attachFrom (gap : Text) (ts : List Token) :
    closeFirst (attachFrom gap ts) = closeFirst (attachFrom [] ts) := by
  induction ts generalizing gap with
  | nil => rfl
  | cons t ts ih =>
    rw [attachFrom, attachFrom]
    split
    · rw [ih (gap ++ t.text), ih ([] ++ t.text)]
    · rfl

end Lexeme

end Docblock
