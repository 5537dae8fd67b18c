import Docblock.Proofs.TypeExpr.Respelling
import Mathlib

/-!
# Types read back

A type that was read from some text is read again, as the same tree, from its printed form.

The reader passed words that spell the type (`sound_readerTo`), the printed form consists of words
that spell it too (`reprints_spelled`), these are the words that the scanner finds in the printed
form (`Word.scan_source`), and so the reader accepts them (`complete_readerTo`).
-/

namespace Docblock.TypeExpr

open Lexeme (words)

theorem parse_eq_ok_iff {s : Text} {ty : TypeExpr} :
    parse s = .ok ty ↔ ∃ rest, reader (Lexeme.ofText s) = .ok (ty, rest) ∧
      ∀ t ∈ rest, t.kind = .newline := by
  unfold parse
  cases hread : reader (Lexeme.ofText s) with
  | error fault => simp
  | ok x =>
    obtain ⟨ty', rest⟩ := x
    simp only [Except.ok.injEq, Prod.mk.injEq]
    cases hrest : rest.dropWhile (·.kind = .newline) with
    | nil =>
      have hall : ∀ t ∈ rest, t.kind = .newline := by
        simpa [List.dropWhile_eq_nil_iff] using hrest
      simp only [Except.ok.injEq]
      constructor
      · rintro rfl
        exact ⟨rest, ⟨rfl, rfl⟩, hall⟩
      · rintro ⟨_, ⟨rfl, -⟩, -⟩
        rfl
    | cons t us =>
      simp only [reduceCtorEq, false_iff, not_exists, not_and]
      rintro _ ⟨-, rfl⟩ hall
      have hnil : rest.dropWhile (·.kind = .newline) = [] := by
        simpa [List.dropWhile_eq_nil_iff] using hall
      rw [hnil] at hrest
      cases hrest

/-- A type that was read reads back from its printed form. -/
theorem parse_print_eq_of_parse_eq {s : Text} {ty : TypeExpr} (h : parse s = .ok ty) :
    parse ty.print = .ok ty := by
  obtain ⟨rest, hread, -⟩ := parse_eq_ok_iff.mp h
  obtain ⟨ws, js, hpass, hspelled, -⟩ := sound_readerTo maxDepth hread
  have hgenuine : Genuine ws := (hpass.genuine (genuine_ofText s)).1
  obtain ⟨vs, ks, hvs, -, hwritten⟩ := reprints_spelled maxDepth hspelled hgenuine
  -- the scanner finds in the printed form the words that were written
  have hwords : words (Lexeme.ofText ty.print) = vs := by
    rw [Word.words_ofText, ← hwritten.source]
    exact Word.scan_source (hwritten.phrase none (by simp))
  refine parse_eq_ok_iff.mpr ⟨[], ?_, by simp⟩
  have hagain : reader (Lexeme.ofText ty.print ++ []) = .ok (ty, []) :=
    complete_readerTo maxDepth hvs hwords (clear_nil_right ks)
  rwa [List.append_nil] at hagain

/-- A type with a comma and a pair of parentheses that are not printed, an `&` that is handed back,
and a result that takes in all that follows it. -/
theorem parse_print_callable :
    ∃ ty, parse "A|callable( ?\\B & ...$x = 'a', array\x7b1 ?:K::*,\x7d[]) : X::Y* &callable()".toList =
      .ok ty ∧ parse ty.print = .ok ty := by
  have h : parse
      "A|callable( ?\\B & ...$x = 'a', array\x7b1 ?:K::*,\x7d[]) : X::Y* &callable()".toList =
    .ok (.union [.named ⟨[['A']], false⟩,
      .callable
        [⟨.nullable (.named ⟨[['B']], true⟩), true, true, some ['x'], some "'a'".toList⟩,
         ⟨.array (.shape .array [⟨['1'], true, .constant (.named ⟨[['K']], false⟩) ['*']⟩]),
           false, false, none, none⟩]
        (some (.intersection
          [.constant (.named ⟨[['X']], false⟩) ['Y', '*'], .callable [] none]))]) := by
    cbv
  exact ⟨_, h, parse_print_eq_of_parse_eq h⟩

end Docblock.TypeExpr
