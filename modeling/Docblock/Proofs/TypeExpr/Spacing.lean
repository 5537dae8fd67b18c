import Docblock.Proofs.Comment.Content
import Docblock.Proofs.Lexeme.Attach
import Docblock.Proofs.TypeExpr.Language

/-!
# Blanks in types

A type may be spaced freely: two texts with the same tokens apart from the blanks are read as the
same tree, or refused with the same message.  Only one gap counts, that between an identifier and an
asterisk behind it.

## Contents

1. `starred`: the identifiers that an asterisk touches.
2. `similar_ofText`: texts that differ in their blanks have similar lexemes.
3. `Fault.message_toError`: messages about similar lexemes.
4. `parse_spacing`: reading them.
-/

namespace Docblock

open Lexeme (words)

/-! ## Section 1: Identifiers and asterisks -/

/-- For every token other than a blank: is it an identifier, and is the very next token an
asterisk? -/
def Token.starred : List Token → List Bool
  | [] => []
  | t :: rest =>
    if t.kind = .blank then starred rest
    else (t.kind == .ident && rest.head?.any (·.kind == .asterisk)) :: starred rest

namespace Lexeme

/-- For every lexeme: is it an identifier, and is the next one an asterisk with no blank before? -/
def starred : List Lexeme → List Bool
  | [] => []
  | t :: rest =>
    (t.kind == .ident && rest.head?.any fun u => u.kind == .asterisk && u.isGlued) :: starred rest

variable {ts us : List Token}

/-- An asterisk that comes first is glued exactly if no blank stands before it. -/
theorem head_attachFrom (hts : ∀ t ∈ ts, t.text ≠ []) :
    (attachFrom [] ts).head?.any (fun u => u.kind == .asterisk && u.isGlued) =
      ts.head?.any (·.kind == .asterisk) := by
  cases ts with
  | nil => rfl
  | cons t ts =>
    rw [attachFrom]
    split
    · next ht =>
      -- a blank in front, so that nothing is glued to what stands before
      have hgap := prefix_gap_attachFrom ([] ++ t.text) ts
      cases hhead : (attachFrom ([] ++ t.text) ts).head? with
      | none => simp [ht]
      | some u =>
        rw [hhead] at hgap
        have hglued : u.isGlued = false := by
          rw [isGlued, List.isEmpty_eq_false_iff]
          intro hnil
          have hpre := hgap u rfl
          rw [hnil, List.nil_append, List.prefix_nil] at hpre
          exact hts t List.mem_cons_self hpre
        simp only [Option.any_some, List.head?_cons, hglued, ht, Bool.and_false]
        rfl
    · -- the token itself comes first, with no gap
      simp [isGlued]

/-- So the flags of the lexemes are those of the tokens. -/
theorem starred_attachFrom (hts : ∀ t ∈ ts, t.text ≠ []) (gap : Text) :
    starred (attachFrom gap ts) = Token.starred ts := by
  induction ts generalizing gap with
  | nil => rfl
  | cons t ts ih =>
    have htail : ∀ u ∈ ts, u.text ≠ [] := fun u hu => hts u (List.mem_cons_of_mem t hu)
    rw [attachFrom, Token.starred]
    split
    · exact ih htail _
    · rw [starred, ih htail, head_attachFrom htail]

end Lexeme

/-! ## Section 2: Similar lexemes -/

/-- Lexemes with the same words and the same flags are similar. -/
theorem similar_of_starred {ts us : List Lexeme}
    (hcores : ts.map (·.word.core) = us.map (·.word.core))
    (hstarred : Lexeme.starred ts = Lexeme.starred us) : Similar (words ts) (words us) := by
  induction ts generalizing us with
  | nil =>
    obtain rfl := List.map_eq_nil_iff.mp hcores.symm
    exact .nil
  | cons t ts ih =>
    obtain ⟨u, us, rfl, htu, hrest⟩ := List.map_eq_cons_iff.mp hcores.symm
    obtain ⟨hflag, htail⟩ := List.cons.inj hstarred
    obtain ⟨hkind, htext⟩ := Prod.mk.inj htu
    refine .cons hkind htext ?_ (ih hrest.symm htail)
    intro hident a ha hasterisk b hb
    -- both flags stand for an asterisk that is next, and say whether it touches
    obtain ⟨x, hx, rfl⟩ : ∃ x ∈ ts.head?, x.word = a := by simpa [words] using ha
    obtain ⟨y, hy, rfl⟩ : ∃ y ∈ us.head?, y.word = b := by simpa [words] using hb
    -- the words have the same kinds
    have hy' : y.kind = .asterisk := by
      have := congrArg List.head? hrest
      rw [List.head?_map, List.head?_map, Option.mem_def.mp hx, Option.mem_def.mp hy] at this
      exact (Prod.mk.inj (Option.some.inj this)).1.trans hasterisk
    have hglued : x.isGlued = y.isGlued := by
      have hu : u.kind = .ident := hkind.trans hident
      have ht : t.kind = .ident := hident
      have hx' : x.kind = .asterisk := hasterisk
      simpa [Option.mem_def.mp hx, Option.mem_def.mp hy, ht, hu, hx', hy'] using hflag
    rw [Bool.eq_iff_iff] at hglued
    simpa [Lexeme.isGlued] using hglued.symm

/-- Texts with the same tokens apart from the blanks have similar lexemes, if the same asterisks
touch the identifiers before them. -/
theorem similar_ofText {s s' : Text}
    (hcores : Token.cores (Token.tokenize s) = Token.cores (Token.tokenize s'))
    (hstarred : Token.starred (Token.tokenize s) = Token.starred (Token.tokenize s')) :
    Similar (words (Lexeme.ofText s)) (words (Lexeme.ofText s')) := by
  have hsolid (s : Text) : ∀ t ∈ Token.tokenize s, t.text ≠ [] := fun t ht =>
    Token.forms_ne_nil (Token.forms_of_mem_tokensFrom ht)
  -- the words of the lexemes are the solid tokens
  have hcore (s : Text) : (Lexeme.ofText s).map (·.word.core) = Token.cores (Token.tokenize s) := by
    rw [Token.cores, ← Lexeme.map_toToken_ofText, List.map_map]
    rfl
  refine similar_of_starred ?_ ?_
  · rw [hcore, hcore, hcores]
  · rw [Lexeme.ofText, Lexeme.ofText, Lexeme.ofTokens, Lexeme.ofTokens,
      Lexeme.starred_attachFrom (hsolid s), Lexeme.starred_attachFrom (hsolid s'), hstarred]

/-! ## Section 3: Messages -/

theorem Token.display_congr {t u : Token} (hkind : u.kind = t.kind) (htext : u.text = t.text) :
    u.display = t.display := by
  unfold display
  rw [hkind, htext]

/-- A message names the token at which reading stopped by its kind and its text. -/
theorem Reason.message_congr {t u : Token} (hkind : u.kind = t.kind) (htext : u.text = t.text)
    (r : Reason) : r.message u = r.message t := by
  unfold message
  rw [Token.display_congr hkind htext]

/-- So the message of a fault depends on its reason and on the word it was found at. -/
theorem Fault.message_toError {f f' : Fault} (hreason : f'.reason = f.reason)
    (hfound : f'.found.map (·.word.core) = f.found.map (·.word.core)) (s s' : Text) :
    (f'.toError (Token.stopOf s')).message = (f.toError (Token.stopOf s)).message := by
  rw [toError, toError, hreason]
  cases hf : f.found with
  | none =>
    -- both stop at the end of their text
    obtain hf' : f'.found = none := by simpa [hf] using hfound
    rw [hf']
    exact Reason.message_congr rfl rfl f.reason
  | some t =>
    obtain ⟨u, hf', hcore⟩ : ∃ u, f'.found = some u ∧ u.word.core = t.word.core := by
      simpa [hf] using hfound
    obtain ⟨hkind, htext⟩ := Prod.mk.inj hcore
    rw [hf']
    exact Reason.message_congr hkind htext f.reason

/-- Line breaks are dropped from similar lexemes alike. -/
theorem Similar.dropWhile_newline {ts us : List Lexeme} (h : Similar (words ts) (words us)) :
    Similar (words (ts.dropWhile (·.kind = .newline)))
      (words (us.dropWhile (·.kind = .newline))) := by
  induction ts generalizing us with
  | nil =>
    rw [h.lexemes_eq_nil]
    exact .nil
  | cons t ts ih =>
    obtain ⟨u, us, rfl, hkind, -, htail⟩ := h.exists_lexeme
    -- both lists go on alike
    by_cases ht : t.kind = .newline
    · rw [List.dropWhile_cons_of_pos (by simp [ht]),
        List.dropWhile_cons_of_pos (by simp [hkind, ht])]
      exact ih htail
    · rw [List.dropWhile_cons_of_neg (by simp [ht]),
        List.dropWhile_cons_of_neg (by simp [hkind, ht])]
      exact h

/-! ## Section 4: Reading -/

namespace TypeExpr

/-- The outcomes of reading two texts: the same tree, or the same message. -/
def SameOutcome (x y : Except SyntaxError TypeExpr) : Prop :=
  (∃ ty, x = .ok ty ∧ y = .ok ty) ∨ ∃ e e', x = .error e ∧ y = .error e' ∧ e.message = e'.message

/-- Only line breaks may be left over. -/
theorem sameOutcome_of_rest {ty : TypeExpr} {rest rest' : List Lexeme}
    (h : Similar (words rest) (words rest')) (s s' : Text) :
    SameOutcome
      (match rest.dropWhile (·.kind = .newline) with
        | [] => .ok ty
        | t :: _ => .error (Fault.toError (Token.stopOf s) ⟨.expecting (.token .stop), some t⟩))
      (match rest'.dropWhile (·.kind = .newline) with
        | [] => .ok ty
        | t :: _ =>
          .error (Fault.toError (Token.stopOf s') ⟨.expecting (.token .stop), some t⟩)) := by
  have hleft := h.dropWhile_newline
  cases hrest : rest.dropWhile (·.kind = .newline) with
  | nil =>
    rw [hrest] at hleft
    rw [hleft.lexemes_eq_nil]
    exact .inl ⟨ty, rfl, rfl⟩
  -- both stop at a token with the same kind and text
  | cons t ts =>
    rw [hrest] at hleft
    obtain ⟨u, us, hrest', hkind, htext, -⟩ := hleft.exists_lexeme
    rw [hrest']
    refine .inr ⟨_, _, rfl, rfl, Fault.message_toError ?_ ?_ s' s⟩
    · rfl
    · exact congrArg some (Prod.ext hkind.symm htext.symm)

/-- Similar lexemes are parsed to the same tree, or refused with the same message. -/
theorem sameOutcome_of_similar {s s' : Text}
    (h : Similar (words (Lexeme.ofText s)) (words (Lexeme.ofText s'))) :
    SameOutcome (parse s) (parse s') := by
  -- each run has as much room as the other
  have hfollows := readerTo_agrees (Nat.le_refl maxDepth) h
  have hfollows' := readerTo_agrees (Nat.le_refl maxDepth) h.symm
  unfold parse reader
  generalize readerTo maxDepth (Lexeme.ofText s) = x at hfollows hfollows'
  generalize readerTo maxDepth (Lexeme.ofText s') = y at hfollows hfollows'
  cases hfollows with
  | ok hrest => exact sameOutcome_of_rest hrest s s'
  | error hreason hfound =>
    exact .inr ⟨_, _, rfl, rfl, (Fault.message_toError hreason hfound s s').symm⟩
  | deep hdeep =>
    -- of the depth the other run complains as well
    cases hfollows' with
    | error hreason hfound => exact .inr ⟨_, _, rfl, rfl, Fault.message_toError hreason hfound s' s⟩
    | deep hdeep' =>
      refine .inr ⟨_, _, rfl, rfl, ?_⟩
      rw [Fault.toError, Fault.toError, hdeep, hdeep']
      rfl

/-- Two texts with the same tokens apart from the blanks are read as the same tree or refused with
the same message, if every identifier that an asterisk follows is touched by it in both or in
neither. -/
theorem parse_spacing {s s' : Text}
    (hcores : Token.cores (Token.tokenize s) = Token.cores (Token.tokenize s'))
    (hstarred : Token.starred (Token.tokenize s) = Token.starred (Token.tokenize s')) :
    (∃ ty, parse s = .ok ty ∧ parse s' = .ok ty) ∨
      ∃ e e', parse s = .error e ∧ parse s' = .error e' ∧ e.message = e'.message :=
  sameOutcome_of_similar (similar_ofText hcores hstarred)

/-- A constant whose asterisk touches its name, in a union with blanks and without. -/
theorem parse_spacing_constant :
    (∃ ty, parse "A::B*|array<C,D>".toList = .ok ty ∧
      parse " A :: B* |\tarray <C , D >".toList = .ok ty) ∨
      ∃ e e', parse "A::B*|array<C,D>".toList = .error e ∧
        parse " A :: B* |\tarray <C , D >".toList = .error e' ∧ e.message = e'.message := by
  have hcores : Token.cores (Token.tokenize "A::B*|array<C,D>".toList) =
      Token.cores (Token.tokenize " A :: B* |\tarray <C , D >".toList) := by
    cbv
  have hstarred : Token.starred (Token.tokenize "A::B*|array<C,D>".toList) =
      Token.starred (Token.tokenize " A :: B* |\tarray <C , D >".toList) := by
    cbv
  exact parse_spacing hcores hstarred

end TypeExpr

end Docblock
