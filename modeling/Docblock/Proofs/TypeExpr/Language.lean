import Docblock.Proofs.TypeExpr.Agreement
import Docblock.Proofs.TypeExpr.Normal
import Docblock.Proofs.TypeExpr.RoundTrip
import Mathlib.Data.List.DropRight

/-!
# The language of type expressions

Reading a type accepts exactly the phrases of the grammar, as long as types do not nest too deep.

What is read is derivable because the words that the reader passed spell the tree
(`sound_readerTo`), and each rule of spelling is a production (`derives_of_spelled`).  A phrase is
read because it has a greedy spelling (`normal_of_derives`), which is read with enough depth
(`complete_readerTo`), and reading with less depth agrees until it complains (`readerTo_agrees`).
-/

namespace Docblock

open Lexeme (words)

/-- The words that are passed are those in front, up to gaps that do not count. -/
theorem Passes.exists_similar {ts rest : List Lexeme} {ws : List Word} (h : Passes ts ws rest) :
    ∃ pre post, ts = pre ++ post ∧ Similar ws (words pre) ∧
      post.map Lexeme.toToken = rest.map Lexeme.toToken := by
  induction h with
  | done ts => exact ⟨[], ts, rfl, .nil, rfl⟩
  | @step ts rest ws t h ih =>
    obtain ⟨pre, post, rfl, hpre, hpost⟩ := ih
    refine ⟨t :: pre, post, rfl, .cons rfl rfl ?_ hpre, hpost⟩
    -- the first word that is passed keeps its gap
    intro _ a ha _ b hb
    have hfirst := h.head_eq ha
    rw [← List.head?_map, List.map_append] at hfirst
    have hb' : b ∈ (pre.map Lexeme.word ++ post.map Lexeme.word).head? :=
      List.mem_head?_append_of_mem_head? hb
    rw [Option.mem_unique hb' hfirst]
  | @drawUp ts rest ws t u ht h ih =>
    obtain ⟨pre, post, hts, hpre, hpost⟩ := ih
    cases pre with
    | nil =>
      refine ⟨[], t :: u :: ts, rfl, hpre, ?_⟩
      rw [← hpost, ← show t :: u.closeUp :: ts = post from hts]
      rfl
    | cons t' pre =>
      rw [List.cons_append, List.cons.injEq] at hts
      obtain ⟨rfl, hts⟩ := hts
      cases pre with
      | nil =>
        refine ⟨[t], u :: ts, rfl, hpre, ?_⟩
        rw [← hpost, ← show u.closeUp :: ts = post from hts]
        rfl
      | cons u' pre =>
        rw [List.cons_append, List.cons.injEq] at hts
        obtain ⟨rfl, rfl⟩ := hts
        refine ⟨t :: u :: pre, post, rfl, ?_, hpost⟩
        -- only the gap after the `&` is another
        cases hpre with
        | @cons w _ _ _ kind text _ hpre =>
          refine .cons kind text ?_ ?_
          · intro hident
            rw [← kind, Lexeme.word_kind, ht] at hident
            cases hident
          · cases hpre with
            | cons kind text star hpre => exact .cons kind text star hpre

theorem Similar.forall_kind {P : Kind → Prop} {ws vs : List Word} (h : Similar ws vs)
    (hvs : ∀ v ∈ vs, P v.kind) : ∀ w ∈ ws, P w.kind := by
  induction h with
  | nil => simp
  | cons kind _ _ _ ih =>
    obtain ⟨hv, hvs⟩ := List.forall_mem_cons.mp hvs
    exact List.forall_mem_cons.mpr ⟨kind ▸ hv, ih hvs⟩

namespace TypeExpr

/-- The lexemes of a text without the line breaks at its end. -/
def phrase (s : Text) : List Word :=
  words ((Lexeme.ofText s).rdropWhile (·.kind = .newline))

/-- What is parsed is derived from its words. -/
theorem derives_of_parse {s : Text} {ty : TypeExpr} (h : parse s = .ok ty) :
    Derives .type (phrase s) := by
  obtain ⟨rest, hread, hrest⟩ := parse_eq_ok_iff.mp h
  obtain ⟨ws, js, hpass, hspelled, -⟩ := sound_readerTo maxDepth hread
  obtain ⟨pre, post, hs, hpre, hpost⟩ := hpass.exists_similar
  have hderives : Derives .type (words pre) := derives_of_spelled maxDepth hspelled hpre
  -- what is left are line breaks
  have hnewlines : ∀ t ∈ post, t.kind = .newline := by
    intro t ht
    obtain ⟨u, hu, heq⟩ : ∃ u ∈ rest, u.toToken = t.toToken := by
      rw [← List.mem_map, ← hpost]
      exact List.mem_map_of_mem ht
    rw [← heq]
    exact hrest u hu
  have hno : ∀ t ∈ pre, t.kind ≠ .newline := fun t ht =>
    hderives.not_mem_newline t.word (List.mem_map_of_mem ht)
  -- line breaks at the end are not part of the phrase
  have hphrase : (Lexeme.ofText s).rdropWhile (·.kind = .newline) = pre := by
    have hlast : ∀ hne : pre ≠ [], ¬ (pre.getLast hne).kind = .newline := fun hne =>
      hno _ (List.getLast_mem hne)
    rw [hs, List.rdropWhile, List.reverse_append, List.dropWhile_append_of_pos (by simpa using hnewlines)]
    exact List.rdropWhile_eq_self_iff.mpr (by simpa using hlast)
  rw [phrase, hphrase]
  exact hderives

/-- Lexemes for words, wherever they stand. -/
theorem exists_lexemes (ws : List Word) : ∃ ts, words ts = ws := by
  refine ⟨ws.map fun w => ⟨⟨w.kind, w.text, .start⟩, w.gap⟩, ?_⟩
  rw [words, List.map_map]
  exact List.map_id ws

/-- What is derived is parsed, unless it is nested too deeply. -/
theorem parse_of_derives {s : Text} (h : Derives .type (phrase s))
    (hdeep : ∀ e, parse s = .error e → e.message ≠ "type nesting too deep".toList) :
    ∃ ty, parse s = .ok ty := by
  obtain ⟨vs, ty, js, hvs, hspelled⟩ := normal_of_derives h
  obtain ⟨pre, rfl⟩ := exists_lexemes vs
  obtain ⟨post, hs, hpost⟩ : ∃ post, Lexeme.ofText s =
      (Lexeme.ofText s).rdropWhile (·.kind = .newline) ++ post ∧ ∀ t ∈ post, t.kind = .newline := by
    refine ⟨(Lexeme.ofText s).rtakeWhile (·.kind = .newline), ?_, ?_⟩
    · exact (List.rdropWhile_append_rtakeWhile ..).symm
    · intro t ht
      simpa using List.mem_rtakeWhile_imp ht
  -- with enough depth the greedy spelling is read, up to the line breaks
  have hclear : Clear js (words post) := by
    cases post with
    | nil => exact clear_nil_right js
    | cons t post =>
      have ht : t.kind = .newline := hpost t List.mem_cons_self
      exact clear_cons (orderly_spells.joints hspelled) _ (by simp [ht, Joint.ofType]) (by simp [ht])
  have hread : readerTo (max maxDepth (words pre).length) (pre ++ post) = .ok (ty, post) :=
    complete_readerTo _ (spelled_of_length_le hspelled (Nat.le_max_right _ _)) rfl hclear
  -- the greedy spelling differs from the text only in gaps that do not matter
  have hsimilar : Similar (words (Lexeme.ofText s)) (words (pre ++ post)) := by
    rw [hs, Lexeme.words_append, Lexeme.words_append]
    refine hvs.append (.refl _) ?_
    intro w hw hstar v hv
    rw [Option.mem_unique hw hv]
  -- and with less depth it is read alike
  have hfollows := readerTo_agrees (Nat.le_max_left maxDepth (words pre).length) hsimilar
  rw [hread] at hfollows
  cases hreader : readerTo maxDepth (Lexeme.ofText s) with
  | ok x =>
    obtain ⟨ty', rest⟩ := x
    rw [hreader] at hfollows
    cases hfollows with
    | ok hrest =>
      refine ⟨ty, parse_eq_ok_iff.mpr ⟨rest, hreader, ?_⟩⟩
      have hkinds : ∀ v ∈ words post, v.kind = .newline := by
        simpa [words] using hpost
      intro t ht
      exact hrest.forall_kind (P := (· = .newline)) hkinds t.word (List.mem_map_of_mem ht)
  -- the only other end is the depth, which is excluded
  | error f =>
    rw [hreader] at hfollows
    cases hfollows with
    | deep hf =>
      exfalso
      refine hdeep (f.toError (Token.stopOf s)) ?_ ?_
      · simp [parse, reader, hreader]
      · rw [Fault.toError, hf]
        rfl

/-- Unless types nest too deep, the texts that are read as a type are those whose lexemes form a
phrase of the grammar. -/
theorem parse_ok_iff_derives {s : Text}
    (hdeep : ∀ e, parse s = .error e → e.message ≠ "type nesting too deep".toList) :
    (∃ ty, parse s = .ok ty) ↔ Derives .type (phrase s) := by
  constructor
  · rintro ⟨ty, h⟩
    exact derives_of_parse h
  · intro h
    exact parse_of_derives h hdeep

/-- A callable whose result takes in the union but not the intersection around it. -/
theorem derives_phrase_callable :
    (∀ e, parse "callable(): A|B &C[]\n".toList = .error e →
      e.message ≠ "type nesting too deep".toList) ∧
      Derives .type (phrase "callable(): A|B &C[]\n".toList) := by
  have h : parse "callable(): A|B &C[]\n".toList = .ok (.intersection
      [.callable [] (some (.union [.named (.single ['A']), .named (.single ['B'])])),
        .array (.named (.single ['C']))]) := by
    cbv
  have hdeep : ∀ e, parse "callable(): A|B &C[]\n".toList = .error e →
      e.message ≠ "type nesting too deep".toList := by
    intro e he
    rw [h] at he
    cases he
  exact ⟨hdeep, (parse_ok_iff_derives hdeep).mp ⟨_, h⟩⟩

end TypeExpr

end Docblock
