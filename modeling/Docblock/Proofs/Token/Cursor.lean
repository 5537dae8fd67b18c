import Docblock.Proofs.Token.Placement
import Docblock.Token.Scanner

/-!
# Nothing is lost between the tokens

The texts of the tokens put together are the text, no token is empty, and each of them stands at the
position of the byte offset at which it begins.  Whoever takes the tokens one at a time gets the
same tokens, and then the end of the text as often as it is asked for.

## Contents

1. `Cursor.next_fst`, `Cursor.ahead_next`: one request.
2. `Cursor.request_eq`: any number of requests.
3. `tokenize_lossless`: the tokens and the end of a text.
-/

namespace Docblock.Token

namespace Cursor

/-! ## Section 1: One request -/

variable (c : Cursor)

/-- The tokens that a cursor has still ahead of it. -/
def ahead : List Token :=
  tokensFrom c.pos c.rest

/-- The end of the text, seen from the cursor. -/
def final : Token :=
  ⟨.stop, [], c.pos.advance c.rest⟩

/-- A request is answered with the first of the tokens ahead, or with the end. -/
theorem next_fst : c.next.1 = c.ahead.headD c.final := by
  obtain ⟨rest, pos, done, hdone⟩ := c
  cases done with
  | true =>
    obtain rfl := hdone rfl
    simp [next, ahead, final, tokensFrom_nil, Position.advance]
  | false =>
    cases rest with
    | nil => simp [next, ahead, final, tokensFrom_nil, Position.advance]
    | cons d rest => simp [next, ahead, tokensFrom]

/-- Behind it the other tokens are still ahead, and the end stays where it is. -/
theorem ahead_next : c.next.2.ahead = c.ahead.tail ∧ c.next.2.final = c.final := by
  obtain ⟨rest, pos, done, hdone⟩ := c
  cases done with
  | true =>
    obtain rfl := hdone rfl
    simp [next, ahead, final, tokensFrom_nil]
  | false =>
    cases rest with
    | nil => simp [next, ahead, final, tokensFrom_nil]
    | cons d rest =>
      refine ⟨by simp [next, ahead, tokensFrom], ?_⟩
      -- the part that is read and the part that is left make up the text
      simp [next, final, ← Position.advance_append]

/-! ## Section 2: Many requests -/

theorem request_eq (n : Nat) : c.request n = c.ahead.getD n c.final := by
  induction n generalizing c with
  | zero =>
    rw [request, next_fst]
    cases c.ahead <;> rfl
  | succ n ih =>
    obtain ⟨hahead, hfinal⟩ := c.ahead_next
    rw [request, ih, hahead, hfinal]
    cases c.ahead <;> simp

end Cursor

/-! ## Section 3: The tokens of a text -/

theorem Forms.ne_stop {k : Kind} {t : Text} (h : Forms k t) : k ≠ .stop := by
  rintro rfl
  cases shape_of_forms h with
  | symbol h => cases h

/-- The tokens make up the text, none of them is empty, and each has the position of its byte
offset.  Requests for one token after the other are answered with them, and from then on with the
end, at the position of the number of all bytes. -/
theorem tokenize_lossless (s : Text) :
    (tokenize s).flatMap (·.text) = s ∧
    (∀ t ∈ tokenize s, t.kind ≠ .stop ∧ t.text ≠ []) ∧
    (∀ pre t post, tokenize s = pre ++ t :: post →
      t.pos = .ofOffset s (Text.byteSize (pre.flatMap (·.text)))) ∧
    ∀ n, (Cursor.start s).request n =
      (tokenize s).getD n ⟨.stop, [], .ofOffset s (Text.byteSize s)⟩ := by
  have hend : Position.start.advance s = .ofOffset s (Text.byteSize s) := by
    have := Position.ofOffset_append s []
    rw [List.append_nil] at this
    exact this.symm
  refine ⟨flatMap_text_tokensFrom .start s, ?_, ?_, ?_⟩
  · intro t ht
    have hforms := forms_of_mem_tokensFrom ht
    exact ⟨hforms.ne_stop, forms_ne_nil hforms⟩
  · intro pre t post h
    have hstands : StandsAt s (Text.byteSize (pre.flatMap (·.text))) t :=
      ⟨pre, post ++ [stopOf s], by rw [h, List.append_assoc, List.cons_append], rfl⟩
    exact hstands.pos_eq
  · intro n
    rw [Cursor.request_eq, ← hend]
    rfl

end Docblock.Token
