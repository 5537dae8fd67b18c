import Docblock.Proofs.Position
import Docblock.Proofs.Token.Shape

/-!
# Where tokens stand

The tokens of a text cover it from its beginning to its end, and each of them has the position of
its first character.  So the place of a token is settled by the texts of the tokens before it.

## Contents

1. `tokenwise`: proving a property of texts token by token.
2. `flatMap_text_tokensFrom`, `pos_of_tokensFrom`: no character is lost, and every token is at its
   place.
3. `tokensFrom_append_of_last`, `tokensFrom_of_append`: where a text can be cut in two.
4. `StandsAt`: a token of a text, or its end, and the bytes before it.
5. `tokensFrom_down`: the tokens of a text that begins on another line.
-/

namespace Docblock.Token

/-! ## Section 1: Token by token -/

/-- A property of all texts, from what it says of the empty text and of a text that has one more
token in front. -/
@[elab_as_elim]
theorem tokenwise {motive : Text → Prop} (s : Text) (nil : motive [])
    (token : ∀ (k : Kind) (t rest : Text), Forms k t →
      (∀ d ∈ rest.head?, goesOn k t d = false) → motive rest → motive (t ++ rest)) :
    motive s := by
  induction hn : s.length using Nat.strong_induction_on generalizing s with
  | _ n ih =>
    by_cases hs : s = []
    · rw [hs]
      exact nil
    · obtain ⟨k, t, rest, rfl, hne, hforms, hgo⟩ := exists_forms hs
      have hshorter : rest.length < n := by
        have hpos := List.length_pos_of_ne_nil hne
        rw [List.length_append] at hn
        omega
      exact token k t rest hforms hgo (ih _ hshorter rest rfl)

/-! ## Section 2: Tokens at their places -/

variable {p : Position} {s : Text}

/-- The tokens of a text are the text. -/
theorem flatMap_text_tokensFrom (p : Position) (s : Text) :
    (tokensFrom p s).flatMap (·.text) = s := by
  induction s using tokenwise generalizing p with
  | nil => simp [tokensFrom_nil]
  | token k t rest hforms hgo ih => rw [tokensFrom_append hforms hgo, List.flatMap_cons, ih]

theorem forms_of_mem_tokensFrom {t : Token} (h : t ∈ tokensFrom p s) : Forms t.kind t.text := by
  induction s using tokenwise generalizing p with
  | nil => simp [tokensFrom_nil] at h
  | token k x rest hforms hgo ih =>
    rw [tokensFrom_append hforms hgo] at h
    rcases List.mem_cons.mp h with rfl | h
    · exact hforms
    · exact ih h

/-- A token stands where the tokens before it lead to. -/
theorem pos_of_tokensFrom {pre post : List Token} {t : Token}
    (h : tokensFrom p s = pre ++ t :: post) : t.pos = p.advance (pre.flatMap (·.text)) := by
  induction s using tokenwise generalizing p pre with
  | nil => simp [tokensFrom_nil] at h
  | token k x rest hforms hgo ih =>
    rw [tokensFrom_append hforms hgo] at h
    cases pre with
    | nil =>
      -- the first token stands where the text begins
      obtain ⟨rfl, -⟩ := List.cons.inj h
      rfl
    | cons u pre =>
      obtain ⟨rfl, hrest⟩ := List.cons.inj h
      rw [ih hrest, List.flatMap_cons, Position.advance_append]

/-! ## Section 3: The seam of two texts -/

variable {x y : Text}

/-- Two texts are cut apart at their seam if the last token of the first does not go on with what
the second begins with. -/
theorem tokensFrom_append_of_last (p : Position)
    (hlast : ∀ t ∈ (tokensFrom p x).getLast?, ∀ d ∈ y.head?, goesOn t.kind t.text d = false) :
    tokensFrom p (x ++ y) = tokensFrom p x ++ tokensFrom (p.advance x) y := by
  induction x using tokenwise generalizing p with
  | nil =>
    rw [tokensFrom_nil]
    rfl
  | token k t rest hforms hgo ih =>
    rw [tokensFrom_append hforms hgo] at hlast
    -- behind the first token stands another one of its text, or the seam
    have hgo' : ∀ d ∈ (rest ++ y).head?, goesOn k t d = false := by
      cases rest with
      | nil =>
        rw [tokensFrom_nil] at hlast
        exact hlast _ rfl
      | cons c rest => exact hgo
    have hlast' : ∀ u ∈ (tokensFrom (p.advance t) rest).getLast?, ∀ d ∈ y.head?,
        goesOn u.kind u.text d = false := by
      intro u hu
      apply hlast u
      rw [List.getLast?_cons, Option.mem_def.mp hu]
      rfl
    rw [List.append_assoc, tokensFrom_append hforms hgo', tokensFrom_append hforms hgo,
      ih _ hlast', Position.advance_append, List.cons_append]

/-- Where a token ends, the text before it has the tokens that it has by itself, and the last of
them does not go on. -/
theorem tokensFrom_of_append {a b : List Token} (h : tokensFrom p (x ++ y) = a ++ b)
    (ha : a.flatMap (·.text) = x) :
    tokensFrom p x = a ∧ ∀ t ∈ a.getLast?, ∀ d ∈ y.head?, goesOn t.kind t.text d = false := by
  induction a generalizing p x with
  | nil =>
    obtain rfl : [] = x := ha
    exact ⟨tokensFrom_nil p, by simp⟩
  | cons t a ih =>
    have hne : x ++ y ≠ [] := by
      intro hnil
      rw [hnil, tokensFrom_nil] at h
      cases h
    obtain ⟨k, u, rest, hxy, -, hforms, hgo⟩ := exists_forms hne
    rw [hxy, tokensFrom_append hforms hgo, List.cons_append] at h
    obtain ⟨rfl, hrest⟩ := List.cons.inj h
    -- the first token is a part of `x`, and what is left of `x` stands in front of `y`
    obtain rfl : u ++ a.flatMap (·.text) = x := ha
    rw [List.append_assoc] at hxy
    obtain rfl : a.flatMap (·.text) ++ y = rest := List.append_cancel_left hxy
    obtain ⟨htokens, hlast⟩ := ih hrest rfl
    have hgo' : ∀ d ∈ (a.flatMap (·.text)).head?, goesOn k u d = false := by
      intro d hd
      apply hgo d
      rw [List.head?_append, Option.mem_def.mp hd]
      rfl
    refine ⟨by rw [tokensFrom_append hforms hgo', htokens], ?_⟩
    intro v hv
    cases a with
    | nil =>
      obtain rfl := Option.some.inj hv
      exact hgo
    | cons w a =>
      apply hlast v
      rwa [List.getLast?_cons_cons] at hv

/-! ## Section 4: Tokens and byte offsets -/

/-- The token `t` of the text `s` has `k` bytes before it; the end of the text counts as the last
of its tokens. -/
def StandsAt (s : Text) (k : Nat) (t : Token) : Prop :=
  ∃ pre post, tokenize s ++ [stopOf s] = pre ++ t :: post ∧
    k = Text.byteSize (pre.flatMap (·.text))

/-- The place of a token cuts the text in two, and its position is that of the cut. -/
theorem StandsAt.exists_cut {k : Nat} {t : Token} (h : StandsAt s k t) :
    ∃ before after, s = before ++ after ∧ k = Text.byteSize before ∧
      t.pos = Position.start.advance before := by
  obtain ⟨pre, post, hsplit, rfl⟩ := h
  have hcover : (tokenize s).flatMap (·.text) = s := flatMap_text_tokensFrom .start s
  rcases List.eq_nil_or_concat post with rfl | ⟨post, u, rfl⟩
  · -- the end of the text, after all of its tokens
    obtain ⟨rfl, hlast⟩ := List.append_inj' hsplit rfl
    obtain rfl := List.singleton_injective hlast
    rw [hcover]
    exact ⟨s, [], by simp, rfl, rfl⟩
  · -- a token proper: the texts of the tokens from it on are the second part
    rw [List.concat_eq_append, ← List.cons_append, ← List.append_assoc] at hsplit
    obtain ⟨htokens, -⟩ := List.append_inj' hsplit rfl
    refine ⟨pre.flatMap (·.text), (t :: post).flatMap (·.text), ?_, rfl, pos_of_tokensFrom htokens⟩
    rw [← List.flatMap_append, ← htokens, hcover]

/-- The position of a token is that of the bytes before it. -/
theorem StandsAt.pos_eq {k : Nat} {t : Token} (h : StandsAt s k t) :
    t.pos = Position.ofOffset s k := by
  obtain ⟨before, after, rfl, rfl, hpos⟩ := h.exists_cut
  rw [Position.ofOffset_append, hpos]

end Token

/-! ## Section 5: Lines further down -/

/-- The position `n` lines further down, in the same column. -/
def Position.down (n : Nat) (p : Position) : Position :=
  ⟨p.line + n, p.column⟩

theorem Position.advance_down (n : Nat) (p : Position) (s : Text) :
    (p.down n).advance s = (p.advance s).down n := by
  induction s generalizing p with
  | nil => rfl
  | cons c s ih =>
    have hstep : (p.down n).step c = (p.step c).down n := by
      unfold step down
      split
      · simp only [mk.injEq, and_true]
        omega
      · rfl
    rw [advance_cons, advance_cons, hstep, ih]

/-- The tokens of a text that begins further down are as far down. -/
theorem Token.tokensFrom_down (n : Nat) (p : Position) (s : Text) :
    tokensFrom (p.down n) s = (tokensFrom p s).map fun t => { t with pos := t.pos.down n } := by
  induction s using tokenwise generalizing p with
  | nil => simp [tokensFrom_nil]
  | token k t rest hforms hgo ih =>
    rw [tokensFrom_append hforms hgo, tokensFrom_append hforms hgo, List.map_cons,
      Position.advance_down, ih]

end Docblock
