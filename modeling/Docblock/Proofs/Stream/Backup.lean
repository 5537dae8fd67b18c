import Docblock.Proofs.Stream.Cursor
import Mathlib.Logic.Function.Iterate

/-!
# What a parser sees after a step back

A parser steps back over one token only, and only to an `&`.  From there it goes on as if it had not
been further: it sees the `&` again, as it saw it before, then the token that it has read ahead, and
then the rest of the text.

## Contents

1. `Stream.tok_iterate_nextRaw`, `Stream.seen_iterate_next`: what a parser goes on to see.
2. `Stream.StepsBack`: a step back that loses nothing and repeats nothing.
3. `Stream.Steps.stepsBack`: the step back to an `&` is one.
-/

namespace Docblock

open Token (sequence endsBlank)

/-! ## Section 1: The tokens that a parser goes on to see -/

/-- A lexeme as a parser sees it: the token, and whether blanks are in front of it. -/
def Lexeme.seen (t : Lexeme) : Token × Bool :=
  (t.toToken, !t.isGlued)

namespace Stream

variable {s : Text} {p q : Stream}

/-- What a parser sees where it stands. -/
def seen (p : Stream) : Token × Bool :=
  (p.tok, p.spaced)

/-- A parser that takes blanks as well sees the tokens in front of it one after the other. -/
theorem tok_iterate_nextRaw (p : Stream) (n : Nat) {t : Token} (ht : p.tokens[n]? = some t) :
    (nextRaw^[n] p).tok = t := by
  induction n generalizing p with
  | zero => exact Option.some.inj ht
  -- one step leads to the tokens behind the first
  | succ n ih =>
    rw [Function.iterate_succ_apply]
    apply ih
    rw [tokens_nextRaw]
    rw [tokens, List.getElem?_cons_succ] at ht
    split at ht
    · cases ht
    · exact ht

theorem Placed.mem_of_behind (h : Placed s p) (hstop : p.tok.kind ≠ .stop) {t : Token}
    (ht : t ∈ p.behind) : t ∈ sequence s := by
  cases h with
  | free before _ hsequence _ =>
    rw [hsequence, tokens_eq hstop]
    simp [ht]
  | held before gap q _ _ _ hsequence _ _ _ =>
    rw [hsequence]
    simp [ht]

/-- No blanks are empty, so a gap tells whether there are any. -/
theorem isEmpty_flatMap_text {blanks : List Token} (h : ∀ b ∈ blanks, b.text ≠ []) :
    (blanks.flatMap (·.text)).isEmpty = blanks.isEmpty := by
  cases blanks with
  | nil => rfl
  | cons b bs =>
    have hb : b.text ≠ [] := h b List.mem_cons_self
    simp [hb]

theorem Placed.isEmpty_skipped (h : Placed s p) (hstop : p.tok.kind ≠ .stop)
    {skipped ts : List Token} (hbehind : p.behind = skipped ++ ts)
    (hskipped : ∀ b ∈ skipped, b.kind = .blank) :
    (skipped.flatMap (·.text)).isEmpty = skipped.isEmpty := by
  -- no token of the text is empty
  apply isEmpty_flatMap_text
  intro b hb
  apply Token.text_ne_nil (h.mem_of_behind hstop (by simp [hbehind, hb]))
  simp [hskipped b hb]

theorem exists_lexeme_of_getElem? {n : Nat} {t : Lexeme} (ht : p.lexemes[n + 1]? = some t)
    (hblank : p.tok.kind ≠ .blank) :
    p.tok.kind ≠ .stop ∧ (Lexeme.attachFrom [] p.behind)[n]? = some t := by
  -- at the end there is one lexeme only
  have hstop : p.tok.kind ≠ .stop := by
    intro hstop
    rw [lexemes, tokens, if_pos hstop, Lexeme.attachFrom_solid hblank] at ht
    cases ht
  rw [lexemes_eq hblank hstop, List.getElem?_cons_succ] at ht
  exact ⟨hstop, ht⟩

/-- A parser that steps over blanks sees the lexemes in front of it one after the other. -/
theorem Placed.seen_iterate_next (h : Placed s p) (hfree : p.pending = none)
    (hblank : p.tok.kind ≠ .blank) (n : Nat) {t : Lexeme} (ht : p.lexemes[n + 1]? = some t) :
    (Stream.next^[n + 1] p).seen = t.seen := by
  induction n generalizing p with
  -- one step shows the next lexeme
  | zero =>
    obtain ⟨hstop, ht⟩ := exists_lexeme_of_getElem? ht hblank
    obtain ⟨skipped, hbehind, hskipped, hsolid, hnote⟩ := h.exists_behind hstop
    rw [hfree] at hnote
    have hgap := h.isEmpty_skipped hstop hbehind hskipped
    rw [hbehind, Lexeme.attachFrom_blanks hskipped, tokens, Lexeme.attachFrom_solid hsolid] at ht
    obtain rfl := Option.some.inj ht
    rw [Function.iterate_one, seen, hnote, Lexeme.seen, Lexeme.isGlued]
    simp [hgap]
  -- and the others are seen from there
  | succ n ih =>
    obtain ⟨hstop, ht⟩ := exists_lexeme_of_getElem? ht hblank
    have hsteps := h.next hstop
    obtain ⟨skipped, hbehind, hskipped, hsolid, -⟩ := h.exists_behind hstop
    rw [Function.iterate_succ_apply]
    refine ih (hsteps.placed hblank) (pending_next p) hsolid ?_
    rw [hbehind, Lexeme.attachFrom_blanks hskipped, tokens, Lexeme.attachFrom_solid hsolid] at ht
    rw [lexemes, tokens, Lexeme.attachFrom_solid hsolid]
    exact ht

/-! ## Section 2: Steps back that lose nothing -/

/-- The parser steps back from the place `p` to the place `q`, and nothing is lost or repeated by
that. -/
structure StepsBack (s : Text) (p q : Stream) : Prop where
  /-- There is no token pending when the parser steps back, so that it may do so. -/
  pending_eq_none : p.pending = none
  backup?_eq : p.backup? = some q
  /-- From where it steps back to, the next step leads to where it has been, blanks or not. -/
  next_eq : q.next = p ∧ q.nextRaw = p
  /-- It sees an `&` again, then the token that it has read ahead, and then the other tokens of the
  text that are no blanks, all of them as they stand in the text. -/
  sees : ∃ before amp ahead after,
    Lexeme.ofTokens (sequence s) = before ++ amp :: ahead :: after ∧ amp.kind = .amp ∧
      ∀ n t, (amp :: ahead :: after)[n]? = some t → (Stream.next^[n] q).seen = t.seen
  /-- If it takes blanks as well, it sees all tokens behind the one that it has read ahead. -/
  sees_raw : ∃ before after, sequence s = before ++ p.tok :: after ∧
    ∀ n t, (p.tok :: after)[n]? = some t → (nextRaw^[n] p).tok = t

/-- The step back after a step from an `&`. -/
theorem Steps.stepsBack (h : Steps s p q) (hamp : p.tok.kind = .amp) {r : Stream}
    (hr : q.backup? = some r) : StepsBack s q r := by
  have hsolid : p.tok.kind ≠ .blank := by simp [hamp]
  have hplaced := h.placed hsolid
  obtain ⟨r', hr', -, htok, hspaced, -, -, -, hraw, hnext⟩ := h.backup hamp
  obtain rfl : r' = r := Option.some.inj (hr'.symm.trans hr)
  obtain ⟨before, gap, hsequence, hpspaced, hgap, hqspaced, hpending, -, -, hblank⟩ := h
  have hfront : ∀ t ∈ before, t.text ≠ [] := by
    intro t ht
    have hmem := (Token.prefix_of_sequence hsequence).subset ht
    exact Token.forms_ne_nil (Token.forms_of_mem_tokensFrom hmem)
  -- between the `&` and the token read ahead stand blanks, none of them empty
  have hgaptext : (gap.flatMap (·.text)).isEmpty = gap.isEmpty := by
    apply isEmpty_flatMap_text
    intro b hb
    apply Token.text_ne_nil (s := s)
    · rw [hsequence]
      simp [hb]
    · simp [hgap b hb]
  refine ⟨hpending, hr, ⟨hnext, hraw⟩, ?_, ?_⟩
  · obtain ⟨front, ampGap, hlexemes, hampGap⟩ :=
      Lexeme.exists_attachFrom_glued hfront hsolid (gap ++ q.tokens)
    rw [Lexeme.attachFrom_blanks hgap, tokens, Lexeme.attachFrom_solid hblank] at hlexemes
    refine ⟨front, ⟨p.tok, ampGap⟩, ⟨q.tok, [] ++ gap.flatMap (·.text)⟩,
      Lexeme.attachFrom [] (if q.tok.kind = .stop then [] else q.behind), ?_, hamp, ?_⟩
    · rw [Lexeme.ofTokens, hsequence]
      exact hlexemes
    · intro n t ht
      -- the `&`, the token that was read ahead, and those behind it
      obtain _ | _ | n := n
      · obtain rfl := Option.some.inj ht
        rw [Function.iterate_zero_apply, seen, htok, hspaced, hpspaced, Lexeme.seen, Lexeme.isGlued,
          hampGap, Bool.not_not]
      · obtain rfl := Option.some.inj ht
        rw [Function.iterate_one, hnext, seen, hqspaced, Lexeme.seen, Lexeme.isGlued,
          List.nil_append, hgaptext]
      · rw [Function.iterate_succ_apply, hnext]
        apply hplaced.seen_iterate_next hpending hblank
        rw [lexemes, tokens, Lexeme.attachFrom_solid hblank]
        exact ht
  · -- gap, _, ?_ :: token by token, the gap has been passed already
    refine ⟨before ++ p.tok :: gap, _, ?_, fun n t => q.tok_iterate_nextRaw n⟩
    rw [hsequence, List.append_assoc, List.cons_append]
    rfl

end Stream

end Docblock
