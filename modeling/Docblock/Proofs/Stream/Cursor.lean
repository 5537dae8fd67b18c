import Docblock.Proofs.Lexeme.Attach
import Docblock.Proofs.Token.Blanks
import Docblock.Proofs.Token.Cursor
import Docblock.Stream.Basic

/-!
# Where a parser stands in its text

A parser that runs along a text notes more than the token where it stands: whether blanks are in
front of that token, the token before, and a token that it has stepped back over.  As long as it
takes its steps from tokens that are no blanks, these notes are right, and what it has in front of
it are the last tokens of the text.

## Contents

1. `Token.sequence`: the tokens of a text and its end.
2. `Stream.tokens`: the tokens in front of a parser.
3. `Stream.Placed`: a parser whose notes are right.
4. `Stream.Placed.next`: the step to the next token that is no blank.
5. `Stream.Steps.backup`: the step back.
-/

namespace Docblock

/-! ## Section 1: The tokens of a text and its end -/

namespace Token

/-- The tokens of a text, with the end as the last of them. -/
def sequence (s : Text) : List Token :=
  tokenize s ++ [stopOf s]

variable {s : Text} {before after : List Token} {t u : Token}

/-- Blanks next to each other are one token. -/
theorem kind_ne_of_tokensFrom {p : Position}
    (h : tokensFrom p s = before ++ t :: u :: after) (ht : t.kind = .blank) :
    u.kind ≠ .blank := by
  -- induction on the tokens, up to the blank in question
  induction s using tokenwise generalizing p before with
  | nil => simp [tokensFrom_nil] at h
  | token k x rest hforms hgo ih =>
    rw [tokensFrom_append hforms hgo] at h
    cases before with
    | cons b before => exact ih (List.cons.inj h).2
    | nil =>
      obtain ⟨ht', hrest⟩ := List.cons.inj h
      obtain rfl : k = .blank := by rw [← ht, ← ht']
      have hne : rest ≠ [] := by
        intro hnil
        rw [hnil, tokensFrom_nil] at hrest
        cases hrest
      obtain ⟨k', y, rest', rfl, hy, hforms', hgo'⟩ := exists_forms hne
      rw [tokensFrom_append hforms' hgo'] at hrest
      obtain ⟨hu', -⟩ := List.cons.inj hrest
      -- a second run of blanks would have gone on with the first
      intro hu
      obtain rfl : k' = .blank := by rw [← hu, ← hu']
      obtain ⟨d, y, rfl⟩ := List.exists_cons_of_ne_nil hy
      have hblank : Text.isBlank d = true := blanks_of_forms hforms' d List.mem_cons_self
      have hstops := hgo d rfl
      rw [goesOn_of_isBlank hblank] at hstops
      cases hstops

/-- The end of a text is no blank either. -/
theorem kind_ne_of_sequence (h : sequence s = before ++ t :: u :: after) (ht : t.kind = .blank) :
    u.kind ≠ .blank := by
  rcases List.eq_nil_or_concat' after with rfl | ⟨after, v, rfl⟩
  · have hend : tokenize s ++ [stopOf s] = (before ++ [t]) ++ [u] := by
      rw [List.append_assoc]
      exact h
    obtain ⟨-, rfl⟩ := List.append_singleton_inj.mp hend
    simp [stopOf]
  · have hend : tokenize s ++ [stopOf s] = (before ++ t :: u :: after) ++ [v] := by
      rw [List.append_assoc, List.cons_append, List.cons_append]
      exact h
    exact kind_ne_of_tokensFrom (List.append_singleton_inj.mp hend).1 ht

/-- No token but the end is empty. -/
theorem text_ne_nil (ht : t ∈ sequence s) (hstop : t.kind ≠ .stop) : t.text ≠ [] := by
  rcases List.mem_append.mp ht with ht | ht
  · exact forms_ne_nil (forms_of_mem_tokensFrom ht)
  · obtain rfl := List.mem_singleton.mp ht
    exact absurd rfl hstop

/-- What stands in front of another token is not the end. -/
theorem prefix_of_sequence (h : sequence s = before ++ t :: after) : before <+: tokenize s := by
  have hbefore : before <+: sequence s := by
    rw [h]
    exact List.prefix_append before _
  have htokens : tokenize s <+: sequence s := List.prefix_append _ _
  apply List.prefix_of_prefix_length_le hbefore htokens
  have hlength := congrArg List.length h
  simp only [sequence, List.length_append, List.length_cons, List.length_nil] at hlength
  omega

/-- A text has at most as many tokens as characters. -/
theorem length_tokensFrom_le (p : Position) (s : Text) : (tokensFrom p s).length ≤ s.length := by
  induction s using tokenwise generalizing p with
  | nil => simp [tokensFrom_nil]
  | token k x rest hforms hgo ih =>
    have hx := List.length_pos_of_ne_nil (forms_ne_nil hforms)
    rw [tokensFrom_append hforms hgo, List.length_cons, List.length_append]
    have := ih (p.advance x)
    omega

namespace Cursor

/-- The tokens that a cursor has ahead of it, and the end. -/
def sequence (c : Cursor) : List Token :=
  c.ahead ++ [c.final]

theorem sequence_start (s : Text) : (start s).sequence = Token.sequence s := rfl

/-- A request takes the first of the tokens ahead, and the end is the last that there is. -/
theorem sequence_eq (c : Cursor) :
    c.sequence = c.next.1 :: (if c.next.1.kind = .stop then [] else c.next.2.sequence) := by
  obtain ⟨hahead, hfinal⟩ := c.ahead_next
  -- the next token is one of the text, or the end of it
  cases htokens : c.ahead with
  | nil =>
    have hnext : c.next.1 = c.final := by
      rw [next_fst, htokens]
      rfl
    rw [hnext, if_pos (show c.final.kind = .stop from rfl), sequence, htokens]
    rfl
  | cons t ts =>
    have hnext : c.next.1 = t := by
      rw [next_fst, htokens]
      rfl
    have hkind : t.kind ≠ .stop := by
      have hmem : t ∈ c.ahead := by simp [htokens]
      exact (forms_of_mem_tokensFrom hmem).ne_stop
    rw [hnext, if_neg hkind, sequence, sequence, hahead, hfinal, htokens]
    rfl

theorem length_sequence_le (c : Cursor) : c.sequence.length ≤ c.rest.length + 1 := by
  rw [sequence, List.length_append, List.length_singleton]
  exact Nat.succ_le_succ (length_tokensFrom_le c.pos c.rest)

end Cursor

theorem endsBlank_append (before : List Token) {gap : List Token} (ht : t.kind ≠ .blank)
    (hgap : ∀ b ∈ gap, b.kind = .blank) : endsBlank (before ++ t :: gap) = !gap.isEmpty := by
  rcases List.eq_nil_or_concat' gap with rfl | ⟨gap, b, rfl⟩
  · simp [endsBlank, ht]
  · have hb : b.kind = .blank := hgap b (by simp)
    rw [endsBlank, ← List.cons_append, ← List.append_assoc, List.getLast?_concat]
    simp [hb]

end Token

/-! ## Section 2: The tokens in front of a parser -/

namespace Stream

open Token (sequence endsBlank)

variable {s : Text} {p q : Stream}

/-- The tokens behind the one where the parser stands, if that is not the end. -/
def behind (p : Stream) : List Token :=
  match p.pending with
  | some q => q.tok :: (if q.tok.kind = .stop then [] else p.cursor.sequence)
  | none => p.cursor.sequence

/-- The token where the parser stands and those behind it, up to the end. -/
def tokens (p : Stream) : List Token :=
  p.tok :: (if p.tok.kind = .stop then [] else p.behind)

theorem tokens_eq (h : p.tok.kind ≠ .stop) : p.tokens = p.tok :: p.behind := by
  rw [tokens, if_neg h]

theorem tokens_start (s : Text) : (start s).tokens = sequence s := by
  rw [← Token.Cursor.sequence_start, Token.Cursor.sequence_eq]
  rfl

/-- After a step the parser has the tokens in front of it that were behind. -/
theorem tokens_nextRaw (p : Stream) : p.nextRaw.tokens = p.behind := by
  unfold nextRaw behind
  cases p.pending with
  | some q => rfl
  | none =>
    simp only
    rw [Token.Cursor.sequence_eq]
    rfl

theorem pending_nextRaw (p : Stream) : p.nextRaw.pending = none := by
  unfold nextRaw
  split
  · rfl
  · next h => exact h

theorem prev_nextRaw (p : Stream) :
    p.nextRaw.prev = p.tok ∧ p.nextRaw.prevSpaced = p.spaced := by
  unfold nextRaw
  split
  · exact ⟨rfl, rfl⟩
  · exact ⟨rfl, rfl⟩

theorem depth_nextRaw (p : Stream) : p.nextRaw.depth = p.depth := by
  unfold nextRaw
  cases p.pending <;> rfl

/-- The number of steps that a parser allows for is large enough. -/
theorem length_tokens_le_room (p : Stream) : p.tokens.length ≤ p.room := by
  have hcursor := p.cursor.length_sequence_le
  -- at most a pending token comes on top of those of the cursor
  have hbehind : p.behind.length ≤ p.cursor.sequence.length + 1 := by
    unfold behind
    split
    · rw [List.length_cons]
      split
      · simp
      · exact le_rfl
    · exact Nat.le_succ _
  have htokens : p.tokens.length ≤ p.behind.length + 1 := by
    rw [tokens, List.length_cons]
    split
    · simp
    · exact le_rfl
  unfold room
  omega

/-! ## Section 3: Notes that are right -/

/-- The notes of a parser are right, and the tokens in front of it are the last of the text. Where a
token is pending, the parser stands at an `&`, and the blanks between the two tokens are lost. -/
inductive Placed (s : Text) (p : Stream) : Prop where
  | free (before : List Token) (hpending : p.pending = none)
      (hsequence : sequence s = before ++ p.tokens) (hspaced : p.spaced = endsBlank before)
  | held (before gap : List Token) (q : Pending) (hpending : p.pending = some q)
      (hamp : p.tok.kind = .amp) (hq : q.tok.kind ≠ .blank)
      (hsequence : sequence s = before ++ p.tok :: (gap ++ p.behind))
      (hgap : ∀ b ∈ gap, b.kind = .blank) (hspaced : p.spaced = endsBlank before)
      (hqspaced : q.spaced = !gap.isEmpty)

/-- The step from one place to the next token that is no blank. -/
inductive Steps (s : Text) (p q : Stream) : Prop where
  | mk (before gap : List Token) (hsequence : sequence s = before ++ p.tok :: (gap ++ q.tokens))
      (hspaced : p.spaced = endsBlank before) (hgap : ∀ b ∈ gap, b.kind = .blank)
      (hqspaced : q.spaced = !gap.isEmpty) (hpending : q.pending = none)
      (hprev : q.prev = p.tok) (hprevSpaced : q.prevSpaced = p.spaced)
      (hblank : q.tok.kind ≠ .blank)

/-- Only an `&` can have a pending token behind it. -/
theorem Placed.pending_eq_none (h : Placed s p) (hamp : p.tok.kind ≠ .amp) : p.pending = none := by
  cases h with
  | free _ hpending _ _ => exact hpending
  | held _ _ _ _ hkind _ _ _ _ _ => exact absurd hkind hamp

/-- No two blanks are next to each other behind the parser. -/
theorem Placed.behind_ne (h : Placed s p) (hstop : p.tok.kind ≠ .stop) {t u : Token}
    {after : List Token} (hbehind : p.behind = t :: u :: after) (ht : t.kind = .blank) :
    u.kind ≠ .blank := by
  cases h with
  | free before _ hsequence _ =>
    rw [tokens_eq hstop, hbehind, ← List.singleton_append, ← List.append_assoc] at hsequence
    exact Token.kind_ne_of_sequence hsequence ht
  | held before gap q hpending _ hq _ _ _ _ =>
    -- what is pending is not a blank
    rw [behind, hpending] at hbehind
    obtain ⟨rfl, -⟩ := List.cons.inj hbehind
    exact absurd ht hq

/-! ## Section 4: Steps -/

theorem next_of_blank (h : p.nextRaw.tok.kind = .blank) :
    p.next =
      { p.nextRaw.nextRaw with
        spaced := true, prev := p.nextRaw.prev, prevSpaced := p.nextRaw.prevSpaced } :=
  if_pos h

theorem next_of_not_blank (h : p.nextRaw.tok.kind ≠ .blank) : p.next = p.nextRaw :=
  if_neg h

/-- A step leaves out one run of blanks at most, and notes whether it has. -/
theorem Placed.exists_behind (h : Placed s p) (hstop : p.tok.kind ≠ .stop) :
    ∃ skipped, p.behind = skipped ++ p.next.tokens ∧ (∀ b ∈ skipped, b.kind = .blank) ∧
      p.next.tok.kind ≠ .blank ∧
      match p.pending with
      | some q => skipped = [] ∧ p.next.spaced = q.spaced
      | none => p.next.spaced = !skipped.isEmpty := by
  have hbehind := tokens_nextRaw p
  by_cases hblank : p.nextRaw.tok.kind = .blank
  · have hnonstop : p.nextRaw.tok.kind ≠ .stop := by simp [hblank]
    rw [next_of_blank hblank]
    rw [tokens_eq hnonstop, ← tokens_nextRaw] at hbehind
    refine ⟨[p.nextRaw.tok], hbehind.symm, by simp [hblank], ?_, ?_⟩
    · exact h.behind_ne hstop hbehind.symm hblank
    · cases hpending : p.pending with
      | none => rfl
      | some q =>
        -- a pending token is not a blank
        cases h with
        | free _ hfree _ _ => simp [hfree] at hpending
        | held _ _ q' hpending' _ hq _ _ _ _ =>
          rw [nextRaw, hpending'] at hblank
          exact absurd hblank hq
  · rw [next_of_not_blank hblank]
    refine ⟨[], hbehind.symm, by simp, hblank, ?_⟩
    unfold nextRaw
    split
    · next q hpending =>
      rw [hpending]
      exact ⟨rfl, rfl⟩
    · next hpending =>
      rw [hpending]
      rfl

theorem pending_next (p : Stream) : p.next.pending = none := by
  by_cases hblank : p.nextRaw.tok.kind = .blank
  · rw [next_of_blank hblank]
    exact pending_nextRaw p.nextRaw
  · rw [next_of_not_blank hblank]
    exact pending_nextRaw p

theorem prev_next (p : Stream) : p.next.prev = p.tok ∧ p.next.prevSpaced = p.spaced := by
  by_cases hblank : p.nextRaw.tok.kind = .blank
  · rw [next_of_blank hblank]
    exact prev_nextRaw p
  · rw [next_of_not_blank hblank]
    exact prev_nextRaw p

theorem depth_next (p : Stream) : p.next.depth = p.depth := by
  by_cases hblank : p.nextRaw.tok.kind = .blank
  · rw [next_of_blank hblank]
    exact (depth_nextRaw p.nextRaw).trans (depth_nextRaw p)
  · rw [next_of_not_blank hblank]
    exact depth_nextRaw p

/-- From a token that is no blank and not the end, a parser steps to the next such token, and its
notes are right there. -/
theorem Placed.next (h : Placed s p) (hstop : p.tok.kind ≠ .stop) : Steps s p p.next := by
  obtain ⟨hprev, hprevSpaced⟩ := prev_next p
  obtain ⟨skipped, hbehind, hskipped, hblank, hnote⟩ := h.exists_behind hstop
  -- the notes were right with a token pending or without
  cases h with
  | free before hpending hsequence hspaced =>
    rw [hpending] at hnote
    rw [tokens_eq hstop, hbehind] at hsequence
    exact ⟨before, skipped, hsequence, hspaced, hskipped, hnote, pending_next p, hprev,
      hprevSpaced, hblank⟩
  | held before gap q hpending _ _ hsequence hgap hspaced hqspaced =>
    rw [hpending] at hnote
    obtain ⟨rfl, hnote⟩ := hnote
    rw [hbehind, List.nil_append] at hsequence
    exact ⟨before, gap, hsequence, hspaced, hgap, hnote.trans hqspaced, pending_next p, hprev,
      hprevSpaced, hblank⟩

theorem Steps.placed (h : Steps s p q) (hblank : p.tok.kind ≠ .blank) : Placed s q := by
  obtain ⟨before, gap, hsequence, -, hgap, hqspaced, hpending, -, -, -⟩ := h
  refine .free (before ++ p.tok :: gap) hpending ?_ ?_
  · rw [hsequence, List.append_assoc, List.cons_append]
  · rw [hqspaced, Token.endsBlank_append before hblank hgap]

/-- The lexemes in front of a parser, the first without its gap. -/
def lexemes (p : Stream) : List Lexeme :=
  Lexeme.attachFrom [] p.tokens

theorem lexemes_eq (hblank : p.tok.kind ≠ .blank) (hstop : p.tok.kind ≠ .stop) :
    p.lexemes = ⟨p.tok, []⟩ :: Lexeme.attachFrom [] p.behind := by
  rw [lexemes, tokens_eq hstop, Lexeme.attachFrom_solid hblank]

/-- A step drops the first lexeme. -/
theorem Placed.lexemes_next (h : Placed s p) (hstop : p.tok.kind ≠ .stop) :
    p.next.lexemes = Lexeme.closeFirst (Lexeme.attachFrom [] p.behind) := by
  obtain ⟨skipped, hbehind, hskipped, hblank, -⟩ := h.exists_behind hstop
  rw [hbehind, Lexeme.attachFrom_blanks hskipped, Lexeme.closeFirst_attachFrom, ← lexemes,
    lexemes, tokens, Lexeme.attachFrom_solid hblank]
  rfl

/-! ## Section 5: Steps back -/

/-- After a step from an `&` the parser can step back.  Its notes are right there as well, and the
next step, whether it takes blanks or not, leads to where it has come from. -/
theorem Steps.backup (h : Steps s p q) (hamp : p.tok.kind = .amp) :
    ∃ r, q.backup? = some r ∧ Placed s r ∧ r.tok = p.tok ∧ r.spaced = p.spaced ∧
      r.depth = q.depth ∧ r.pending = some ⟨q.tok, q.spaced⟩ ∧ r.behind = q.tokens ∧
      r.nextRaw = q ∧ r.next = q := by
  obtain ⟨before, gap, hsequence, hspaced, hgap, hqspaced, hpending, hprev, hprevSpaced,
    hblank⟩ := h
  have hbackup : q.backup? =
      some { q with tok := q.prev, spaced := q.prevSpaced, pending := some ⟨q.tok, q.spaced⟩ } := by
    rw [backup?, hpending]
  have htokens : q.tokens = q.tok :: (if q.tok.kind = .stop then [] else q.cursor.sequence) := by
    rw [tokens, behind, hpending]
  have hback : { q with pending := none } = q := by
    rw [← hpending]
  -- the step back restores the token and the note of the step, and keeps the token that was read
  refine ⟨_, hbackup, ?_, hprev, hprevSpaced, rfl, rfl, htokens.symm, hback, ?_⟩
  · refine .held before gap ⟨q.tok, q.spaced⟩ rfl ?_ hblank ?_ hgap ?_ hqspaced
    · rw [hprev, hamp]
    · rw [hprev]
      rw [htokens] at hsequence
      exact hsequence
    · rw [hprevSpaced, hspaced]
  · -- the pending token is not a blank, so that no other step follows
    rw [next_of_not_blank]
    · exact hback
    · exact hblank

end Stream

end Docblock
