import Docblock.Source.Scanner
import Mathlib

/-!
# Files that agree up to the next doc comment

Formatting a file changes nothing but its doc comments.  So from any place on, a file and its
formatted copy agree up to the next doc comment, where both have `/**` and white space, and nothing
is known of what comes after that.  Such texts are `Twins`.

Everything that is read from the one and ends before the comment is read from the other as well.
Most runs end at the comment at the latest, because they do not go on over a `/`.  Those that could
go on are known to end before it, since the comment has been found.

1. `Twins`.
2. Runs that do not nest.
3. Strings.
4. Expressions inside strings.
-/

namespace Docblock.Source

open Token (isVarStart isVarPart runLength)

/-! ## Section 1: Twins -/

/-- Two texts that agree in their first `n` characters, up to a doc comment or to the end. -/
inductive Twins : Nat → Text → Text → Prop where
  | nil : Twins 0 [] []
  | doc {d d' : Char} (x y : Text) (hd : isDocSpace d = true) (hd' : isDocSpace d' = true) :
      Twins 0 ('/' :: '*' :: '*' :: d :: x) ('/' :: '*' :: '*' :: d' :: y)
  | cons {n : Nat} {x y : Text} (c : Char) (h : Twins n x y) : Twins (n + 1) (c :: x) (c :: y)

namespace Twins

variable {n : Nat} {x y : Text}

theorem append (p : Text) (h : Twins n x y) : Twins (p.length + n) (p ++ x) (p ++ y) := by
  induction p with
  | nil => simpa using h
  | cons c p ih =>
    rw [List.length_cons, Nat.add_right_comm]
    exact .cons c ih

theorem head?_eq (h : Twins n x y) : x.head? = y.head? := by
  cases h <;> rfl

/-- Twins have the same first three characters, because `/**` stands in both. -/
theorem take_three (h : Twins n x y) : x.take 3 = y.take 3 := by
  cases h with
  | nil => rfl
  | doc => rfl
  | cons c h =>
    cases h with
    | nil => rfl
    | doc => rfl
    | cons c' h =>
      cases h <;> rfl

/-- Texts that agree to the end are equal. -/
theorem eq_of_length_le (h : Twins n x y) (hn : x.length ≤ n) : x = y := by
  induction h with
  | nil => rfl
  | doc => simp at hn
  | cons c _ ih => rw [ih (by simpa using hn)]

theorem length_le (h : Twins n x y) : n ≤ x.length ∧ n ≤ y.length := by
  induction h with
  | nil => simp
  | doc => simp
  | cons _ _ ih => simpa using ih

/-- A common part is taken off. -/
theorem drop (h : Twins n x y) {k : Nat} (hk : k ≤ n) :
    x.take k = y.take k ∧ Twins (n - k) (x.drop k) (y.drop k) := by
  -- induction on the number of characters that are dropped, each of which both texts share
  induction k generalizing n x y with
  | zero => exact ⟨rfl, h⟩
  | succ k ih =>
    cases h with
    | nil => omega
    | doc => omega
    | @cons n x y c h =>
      obtain ⟨htake, hdrop⟩ := ih h (by omega)
      refine ⟨by simp [htake], ?_⟩
      rwa [Nat.add_sub_add_right]

/-! ## Section 2: Runs that do not nest -/

/-- A run of characters of which `/` is none. -/
theorem takeWhile_eq {p : Char → Bool} (hp : p '/' = false) (h : Twins n x y) :
    x.takeWhile p = y.takeWhile p ∧ (x.takeWhile p).length ≤ n := by
  induction h with
  | nil => simp
  | doc => simp [hp]
  | @cons n x y c h ih =>
    cases hc : p c with
    | false => simp [hc]
    | true => simpa [hc] using ih

theorem runLength_eq {p : Char → Bool} (hp : p '/' = false) (h : Twins n x y) :
    runLength p x = runLength p y ∧ runLength p x ≤ n := by
  obtain ⟨heq, hle⟩ := h.takeWhile_eq hp
  exact ⟨congrArg List.length heq, hle⟩

theorem not_isVarPart_slash : isVarPart '/' = false := by decide

end Twins

/-- The search for a needle looks at one place after the other. -/
theorem lengthBefore?_cons (needle : Text) (c : Char) (x : Text) :
    lengthBefore? needle (c :: x) =
      if needle.isPrefixOf (c :: x) then some 0 else (lengthBefore? needle x).map (· + 1) := by
  unfold lengthBefore?
  rw [Text.breakOn]
  split
  · rfl
  · cases Text.breakOn needle x <;> rfl

/-- Whether a text begins with two given characters, by its head and what is next. -/
theorem isPrefixOf_pair (a b c : Char) (x : Text) :
    [a, b].isPrefixOf (c :: x) = (a == c && x.head? == some b) := by
  cases x with
  | nil => simp [List.isPrefixOf]
  | cons d x =>
    simp only [List.isPrefixOf, List.head?_cons, Bool.and_true]
    congr 1
    exact BEq.comm

namespace Twins

variable {n : Nat} {x y : Text}

theorem isPrefixOf_eq (h : Twins n x y) {p : Text} (hp : p.length ≤ 3) :
    p.isPrefixOf x = p.isPrefixOf y := by
  have htake : x.take p.length = y.take p.length := by
    have := congrArg (List.take p.length) h.take_three
    rwa [List.take_take, List.take_take, Nat.min_eq_left hp] at this
  rw [Bool.eq_iff_iff, List.isPrefixOf_iff_prefix, List.isPrefixOf_iff_prefix,
    List.prefix_iff_eq_take, List.prefix_iff_eq_take, htake]

/-- A delimiter that is found before the comment. -/
theorem lengthBefore?_eq {p : Text} (hp : p.length ≤ 3) (h : Twins n x y) {k : Nat}
    (hx : lengthBefore? p x = some k) (hk : k ≤ n) : lengthBefore? p y = some k := by
  have hprefix := h.isPrefixOf_eq hp
  induction h generalizing k with
  | nil => exact hx
  -- the needle stands right at the comment, and there only three characters of it count
  | doc x y hd hd' =>
    obtain rfl : k = 0 := by omega
    rw [lengthBefore?_cons] at hx ⊢
    rw [← hprefix]
    split at hx
    · next hfound => rw [if_pos hfound]
    · obtain ⟨m, -, hm⟩ := Option.map_eq_some_iff.mp hx
      cases hm
  | cons c h ih =>
    rw [lengthBefore?_cons] at hx ⊢
    rw [← hprefix]
    split at hx
    · next hfound => rw [if_pos hfound, hx]
    · next hfound =>
      obtain ⟨m, hm, rfl⟩ := Option.map_eq_some_iff.mp hx
      rw [if_neg hfound, ih hm (by omega) (h.isPrefixOf_eq hp)]
      rfl

end Twins

/-- A line comment ends before a closing tag or a line break and goes on otherwise. -/
theorem lineCommentLength_cons (c : Char) (x : Text) :
    lineCommentLength (c :: x) =
      if (c = '?' ∧ x.head? = some '>') ∨ c = '\n' ∨ c = '\r' then 0 else lineCommentLength x + 1 := by
  conv_lhs => unfold lineCommentLength
  split
  · next heq => cases heq
  · next heq =>
    cases heq
    simp
  · next c' x' hnot heq =>
    cases heq
    have hclose : ¬(c = '?' ∧ x.head? = some '>') := by
      rintro ⟨rfl, hhead⟩
      obtain ⟨z, rfl⟩ := List.head?_eq_some_iff.mp hhead
      exact hnot z rfl rfl
    simp [hclose]

/-- A backslash takes the next character along, if there is one. -/
theorem escapes_or_plain (c : Char) (x : Text) :
    (c = '\\' ∧ ∃ d z, x = d :: z) ∨ (c ≠ '\\' ∨ x = []) := by
  by_cases hc : c = '\\'
  · cases x with
    | nil => exact .inr (.inr rfl)
    | cons d z => exact .inl ⟨hc, d, z, rfl⟩
  · exact .inr (.inl hc)

theorem quotedLength_escape (close c : Char) (x : Text) :
    quotedLength close ('\\' :: c :: x) = quotedLength close x + 2 := by
  rw [quotedLength]

/-- Without an escape in front, the closing quote ends the string and every other character goes on
with it. -/
theorem quotedLength_cons {close c : Char} {x : Text} (h : c ≠ '\\' ∨ x = []) :
    quotedLength close (c :: x) = if c = close then 1 else quotedLength close x + 1 := by
  conv_lhs => unfold quotedLength
  split
  · next heq => cases heq
  · next heq =>
    cases heq
    simp at h
  · next heq =>
    cases heq
    rfl

namespace Twins

variable {n : Nat} {x y : Text}

/-- A comment that ends with its line. -/
theorem lineCommentLength_eq (h : Twins n x y) (hn : lineCommentLength x ≤ n) :
    lineCommentLength y = lineCommentLength x := by
  induction h with
  | nil => rfl
  -- a line comment goes on over `/**`, so it did not end here
  | doc => simp [lineCommentLength_cons] at hn
  | cons c h ih =>
    rw [lineCommentLength_cons] at hn ⊢
    rw [lineCommentLength_cons, ← h.head?_eq]
    split at hn
    · next hends => rw [if_pos hends, if_pos hends]
    · next hends => rw [if_neg hends, if_neg hends, ih (by omega)]

theorem eq_nil_iff (h : Twins n x y) : x = [] ↔ y = [] := by
  rw [← List.head?_eq_none_iff, h.head?_eq, List.head?_eq_none_iff]

/-- A quoted string. -/
theorem quotedLength_eq {close : Char} (h : Twins n x y) (hn : quotedLength close x ≤ n) :
    quotedLength close y = quotedLength close x := by
  -- an escape takes two characters, so the induction is on the length
  induction hlen : x.length using Nat.strong_induction_on generalizing n x y with
  | _ len ih =>
    cases h with
    | nil => rfl
    -- the string would go on over the comment, against the bound
    | doc x y =>
      rw [quotedLength_cons (by simp)] at hn
      split at hn <;> omega
    | @cons n x y c h =>
      rcases escapes_or_plain c x with ⟨rfl, d, z, rfl⟩ | hplain
      · -- the next character is taken along, so it is not the first of a comment
        cases h with
        | doc x y =>
          rw [quotedLength_escape] at hn
          omega
        | @cons n x y d h =>
          rw [quotedLength_escape] at hn ⊢
          rw [quotedLength_escape, ih z.length (by simp at hlen; omega) h (by omega) rfl]
      · rw [quotedLength_cons hplain] at hn ⊢
        rw [quotedLength_cons (by rwa [← h.eq_nil_iff])]
        split at hn
        · next hclose => rw [if_pos hclose, if_pos hclose]
        · next hclose =>
          rw [if_neg hclose, if_neg hclose, ih x.length (by simp at hlen; omega) h (by omega) rfl]

end Twins

/-! ## Section 3: Strings -/

/-- Two characters decide whether an expression begins: a dollar before a name or a brace, or a
brace before a dollar. -/
theorem opensExpression_cons (c : Char) (x : Text) :
    opensExpression (c :: x) =
      ((c == '$' && x.head?.any fun d => isVarStart d || d == '\x7b') ||
        (c == '\x7b' && x.head? == some '$')) := by
  unfold opensExpression
  split
  · next heq =>
    cases heq
    simp
  · next heq =>
    cases heq
    simp
  · -- neither of the two pairs
    next hdollar hbrace =>
    symm
    rw [Bool.or_eq_false_iff]
    cases x with
    | nil => simp
    | cons d x =>
      have hc : c ≠ '$' := fun hc => hdollar d x (by rw [hc])
      have hd : c ≠ '\x7b' ∨ d ≠ '$' := by
        by_contra hboth
        rw [not_or, not_not, not_not] at hboth
        exact hbrace x (by rw [hboth.1, hboth.2])
      rcases hd with hd | hd <;> simp [hc, hd]

/-- A name that a heredoc can be closed with. -/
def IsLabel (label : Text) : Prop :=
  label ≠ [] ∧ ∀ c ∈ label, isVarPart c = true

/-- A label does not begin with `/`, so a heredoc does not end at one. -/
theorem atLabel_slash {label : Text} (h : IsLabel label) (x : Text) :
    atLabel label ('/' :: x) = false := by
  obtain ⟨l, label, rfl⟩ := List.exists_cons_of_ne_nil h.1
  have hne : (l == '/') = false := by
    rw [beq_eq_false_iff_ne]
    rintro rfl
    cases h.2 _ List.mem_cons_self
  rw [atLabel, List.isPrefixOf, hne, Bool.false_and, Bool.false_and]

/-- The text of a heredoc, one character at a time: it stops at a line break and at an expression,
and it ends at the label when only blanks stand before it on the line. -/
theorem heredocRun_cons (label : Text) (isVerbatim fresh escaped : Bool) (c : Char) (x : Text) :
    heredocRun label isVerbatim fresh escaped (c :: x) =
      if c = '\n' || c = '\r' then (1, false)
      else if Text.isBlank c then
        ((heredocRun label isVerbatim fresh escaped x).1 + 1,
          (heredocRun label isVerbatim fresh escaped x).2)
      else if !isVerbatim && !escaped && opensExpression (c :: x) then (0, false)
      else if fresh && atLabel label (c :: x) then (label.length, true)
      else
        ((heredocRun label isVerbatim false (c = '\\' && !escaped) x).1 + 1,
          (heredocRun label isVerbatim false (c = '\\' && !escaped) x).2) := by
  rw [heredocRun]

theorem quotedRun_escape (close c : Char) (x : Text) :
    quotedRun close false ('\\' :: c :: x) = quotedRun close false x + 2 := by
  rw [quotedRun, if_pos rfl, quotedRun]
  by_cases hc : c = '\\'
  · simp [hc]
  · simp [hc]

/-- Without an escape in front, a run stops before the closing quote and before an expression. -/
theorem quotedRun_cons {close c : Char} {x : Text} (h : c ≠ '\\' ∨ x = []) :
    quotedRun close false (c :: x) =
      if c ≠ '\\' ∧ (c = close ∨ opensExpression (c :: x) = true) then 0
      else quotedRun close false x + 1 := by
  rw [quotedRun]
  by_cases hc : c = '\\'
  · obtain rfl := h.resolve_left (by simpa using hc)
    simp [hc, quotedRun]
  · simp [hc]

theorem holdsExpression_escape (c : Char) (x : Text) :
    holdsExpression ('\\' :: c :: x) = holdsExpression x := by
  rw [holdsExpression]

/-- A string holds an expression when one opens before the closing quote. -/
theorem holdsExpression_cons {c : Char} {x : Text} (h : c ≠ '\\' ∨ x = []) :
    holdsExpression (c :: x) =
      if c = '"' then false else if opensExpression (c :: x) then true else holdsExpression x := by
  conv_lhs => unfold holdsExpression
  split
  · next heq => cases heq
  · next heq =>
    cases heq
    simp at h
  · next heq =>
    cases heq
    rfl

/-- A string is followed at least to its first expression. -/
theorem quotedRun_le_quotedLength (close : Char) (x : Text) :
    quotedRun close false x ≤ quotedLength close x := by
  -- both take an escape in one step, so the induction is on the length
  induction hlen : x.length using Nat.strong_induction_on generalizing x with
  | _ len ih =>
    rcases x with _ | ⟨c, x⟩
    · simp [quotedRun]
    · rcases escapes_or_plain c x with ⟨rfl, d, z, rfl⟩ | hplain
      · rw [quotedRun_escape, quotedLength_escape]
        have := ih z.length (by simp at hlen; omega) z rfl
        omega
      · rw [quotedRun_cons hplain, quotedLength_cons hplain]
        have hrest := ih x.length (by simp at hlen; omega) x rfl
        split
        · exact Nat.zero_le _
        · next hgoes =>
          split
          · next hclose =>
            -- only a backslash at the very end is not a closing quote
            have hc : c = '\\' := by
              by_contra hc
              exact hgoes ⟨hc, .inl hclose⟩
            obtain rfl : x = [] := hplain.resolve_left (by simpa using hc)
            simp [quotedRun]
          · omega

namespace Twins

variable {n : Nat} {x y : Text}

theorem opensExpression_eq (h : Twins n x y) (c : Char) :
    opensExpression (c :: x) = opensExpression (c :: y) := by
  rw [opensExpression_cons, opensExpression_cons, h.head?_eq]

/-- The text of a string up to its next expression. -/
theorem quotedRun_eq {close : Char} (hclose : close ≠ '/') {escaped : Bool} (h : Twins n x y)
    (hn : quotedRun close escaped x ≤ n) : quotedRun close escaped y = quotedRun close escaped x := by
  induction h generalizing escaped with
  | nil => rfl
  -- a run goes on over `/**`, since the quote is no slash
  | doc => simp [quotedRun, opensExpression_cons, hclose.symm] at hn
  | cons c h ih =>
    rw [quotedRun] at hn ⊢
    rw [quotedRun, ← h.opensExpression_eq]
    split at hn
    · next hc => rw [if_pos hc, if_pos hc, ih (by omega)]
    · next hc =>
      rw [if_neg hc, if_neg hc]
      split at hn
      · next hends => rw [if_pos hends, if_pos hends]
      · next hends => rw [if_neg hends, if_neg hends, ih (by omega)]

/-- Whether a string holds an expression is settled before the comment if its text ends there. -/
theorem holdsExpression_eq (h : Twins n x y) (hn : quotedRun '"' false x ≤ n) :
    holdsExpression y = holdsExpression x := by
  induction hlen : x.length using Nat.strong_induction_on generalizing n x y with
  | _ len ih =>
    cases h with
    | nil => rfl
    | doc x y => simp [quotedRun, opensExpression_cons] at hn
    | @cons n x y c h =>
      rcases escapes_or_plain c x with ⟨rfl, d, z, rfl⟩ | hplain
      · -- the escaped character is not the first of the comment, or the run would go on over it
        cases h with
        | doc x y =>
          rw [quotedRun_escape] at hn
          omega
        | @cons n x y d h =>
          rw [quotedRun_escape] at hn
          rw [holdsExpression_escape, holdsExpression_escape,
            ih z.length (by simp at hlen; omega) h (by omega) rfl]
      · rw [quotedRun_cons hplain] at hn
        rw [holdsExpression_cons hplain, holdsExpression_cons (by rwa [← h.eq_nil_iff]),
          ← h.opensExpression_eq]
        split
        · rfl
        · next hquote =>
          split
          · rfl
          · next hopens =>
            rw [if_neg (by simp [hquote, hopens])] at hn
            exact ih x.length (by simp at hlen; omega) h (by omega) rfl

/-- In twins a heredoc ends at the same places: a label has no `/`, so it does not reach into the
comment. -/
theorem atLabel_eq {label : Text} (hlabel : ∀ c ∈ label, isVarPart c = true) (h : Twins n x y) :
    atLabel label x = atLabel label y := by
  induction label generalizing n x y with
  | nil => simp [atLabel, h.head?_eq]
  | cons l label ih =>
    obtain ⟨hl, hlabel⟩ := List.forall_mem_cons.mp hlabel
    cases h with
    | nil => rfl
    | doc =>
      have hlabel' : IsLabel (l :: label) := ⟨by simp, List.forall_mem_cons.mpr ⟨hl, hlabel⟩⟩
      rw [atLabel_slash hlabel', atLabel_slash hlabel']
    | cons c h =>
      have hrest := ih hlabel h
      unfold atLabel at hrest ⊢
      simp only [List.isPrefixOf, List.length_cons, List.drop_succ_cons, Bool.and_assoc, hrest]

/-- The text of a heredoc up to the end of a line, its next expression or its closing label. -/
theorem heredocRun_eq {label : Text} (hlabel : IsLabel label) {isVerbatim fresh escaped : Bool}
    (h : Twins n x y) (hn : (heredocRun label isVerbatim fresh escaped x).1 ≤ n) :
    heredocRun label isVerbatim fresh escaped y = heredocRun label isVerbatim fresh escaped x := by
  induction h generalizing fresh escaped with
  | nil => rfl
  | doc x y hd hd' =>
    -- a heredoc goes on over the `/`
    simp [heredocRun_cons, opensExpression_cons, atLabel_slash hlabel, Text.isBlank] at hn
  | cons c h ih =>
    rw [heredocRun_cons] at hn ⊢
    rw [heredocRun_cons, ← h.opensExpression_eq, ← (Twins.cons c h).atLabel_eq hlabel.2]
    split at hn
    · next hbreak => rw [if_pos hbreak, if_pos hbreak]
    · next hbreak =>
      rw [if_neg hbreak, if_neg hbreak]
      split at hn
      · next hblank => rw [if_pos hblank, if_pos hblank, ih (by simpa using hn)]
      · next hblank =>
        rw [if_neg hblank, if_neg hblank]
        split at hn
        · next hopens => rw [if_pos hopens, if_pos hopens]
        · next hopens =>
          rw [if_neg hopens, if_neg hopens]
          split at hn
          · next hends => rw [if_pos hends, if_pos hends]
          · next hends => rw [if_neg hends, if_neg hends, ih (by simpa using hn)]

/-- A text without a `/` stands in front of both of two twins or of none, and what follows it are
twins again. -/
theorem isPrefixOf?_eq {p : Text} (hp : '/' ∉ p) (h : Twins n x y) :
    (p.isPrefixOf? x = none ∧ p.isPrefixOf? y = none) ∨
      ∃ m x' y', p.isPrefixOf? x = some x' ∧ p.isPrefixOf? y = some y' ∧ Twins m x' y' ∧
        x = p ++ x' ∧ y = p ++ y' ∧ n = p.length + m := by
  -- induction on the text in front, one shared character after the other
  induction p generalizing n x y with
  | nil => exact .inr ⟨n, x, y, by simp [List.isPrefixOf?], by simp [List.isPrefixOf?], h, rfl, rfl, by simp⟩
  | cons c p ih =>
    obtain ⟨hc, hp⟩ : '/' ≠ c ∧ '/' ∉ p := by simpa using hp
    cases h with
    | nil => exact .inl ⟨rfl, rfl⟩
    | doc x y => exact .inl ⟨by simp [List.isPrefixOf?, hc.symm], by simp [List.isPrefixOf?, hc.symm]⟩
    | @cons n x y d h =>
      by_cases hd : c = d
      · subst hd
        rcases ih hp h with ⟨hx, hy⟩ | ⟨m, x', y', hx, hy, htwins, rfl, rfl, rfl⟩
        · exact .inl ⟨by simp [List.isPrefixOf?, hx], by simp [List.isPrefixOf?, hy]⟩
        · refine .inr ⟨m, x', y', ?_, ?_, htwins, rfl, rfl, ?_⟩
          · simp [List.isPrefixOf?, hx]
          · simp [List.isPrefixOf?, hy]
          · rw [List.length_cons, Nat.add_right_comm]
      · exact .inl ⟨by simp [List.isPrefixOf?, hd], by simp [List.isPrefixOf?, hd]⟩

end Twins

/-- What follows the quote after the label of a heredoc, if there has to be one. -/
def lineEnd? (quote : Option Char) (afterLabel : Text) : Option Text :=
  match quote with
  | none => some afterLabel
  | some q => [q].isPrefixOf? afterLabel

/-- The label of a heredoc and the end of its line, after the quote that may stand before the label.
`total` is the length of the text that the whole opening is at the front of. -/
def labelOpening? (total : Nat) (quote : Option Char) (body : Text) : Option HeredocOpening :=
  let label := body.takeWhile isVarPart
  if label.head?.any isVarStart then
    match lineEnd? quote (body.drop label.length) with
    | none => none
    | some lineEnd =>
      if lineEnd.head?.any fun c => c == '\n' || c == '\r' then
        some ⟨label, quote == some '\'', total - lineEnd.length⟩
      else none
  else none

/-- The quote before the label of a heredoc. -/
def labelQuote : Text → Option Char × Text
  | '"' :: body => (some '"', body)
  | '\'' :: body => (some '\'', body)
  | body => (none, body)

/-- The label of a heredoc has double quotes, single quotes or none. -/
theorem labelQuote_cases (z : Text) :
    (∃ body, z = '"' :: body ∧ labelQuote z = (some '"', body)) ∨
      (∃ body, z = '\'' :: body ∧ labelQuote z = (some '\'', body)) ∨
      (z.head? ≠ some '"' ∧ z.head? ≠ some '\'' ∧ labelQuote z = (none, z)) := by
  unfold labelQuote
  split
  · exact .inl ⟨_, rfl, rfl⟩
  · exact .inr (.inl ⟨_, rfl, rfl⟩)
  · next hdouble hsingle =>
    refine .inr (.inr ⟨?_, ?_, rfl⟩)
    · intro hhead
      obtain ⟨body, rfl⟩ := List.head?_eq_some_iff.mp hhead
      exact hdouble body rfl
    · intro hhead
      obtain ⟨body, rfl⟩ := List.head?_eq_some_iff.mp hhead
      exact hsingle body rfl

/-- The opening of a heredoc, in parts. -/
theorem heredocOpening?_eq (x : Text) :
    heredocOpening? x = ("<<".toList.isPrefixOf? x).bind fun mark =>
      let (quote, body) := labelQuote (mark.drop (runLength Text.isBlank mark))
      labelOpening? x.length quote body := by
  -- the label and what ends its line are the same steps for all three kinds of quotes
  have hpart (total : Nat) (quote : Option Char) (body : Text) :
      labelOpening? total quote body = (do
        let first ← (body.takeWhile isVarPart).head?
        guard (isVarStart first)
        let lineEnd ← lineEnd? quote (body.drop (body.takeWhile isVarPart).length)
        guard (lineEnd.head?.any fun c => c == '\n' || c == '\r')
        return ⟨body.takeWhile isVarPart, quote == some '\'', total - lineEnd.length⟩) := by
    unfold labelOpening?
    simp only
    generalize body.takeWhile isVarPart = label
    generalize lineEnd? quote (body.drop label.length) = e
    cases label.head? with
    | none => rfl
    | some first =>
      by_cases hfirst : isVarStart first = true
      · cases e with
        | none => simp [hfirst]
        | some lineEnd =>
          by_cases hend : lineEnd.head?.any (fun c => c == '\n' || c == '\r') = true
          · simp [hfirst, hend]
          · simp [hfirst, hend]
      · simp [hfirst]
  unfold heredocOpening?
  cases "<<".toList.isPrefixOf? x with
  | none => rfl
  | some mark =>
    simp only [Option.bind_some, Option.bind_eq_bind, hpart]
    generalize mark.drop (runLength Text.isBlank mark) = z
    -- the three kinds of quotes differ only in what is passed on
    rcases labelQuote_cases z with ⟨body, rfl, hquote⟩ | ⟨body, rfl, hquote⟩ | ⟨hdouble, hsingle, hquote⟩
    · rfl
    · rfl
    · rw [hquote]
      split
      · simp at hdouble
      · simp at hsingle
      · rfl

/-- What an opening names is a label: not empty, and of characters of names. -/
theorem isLabel_of_labelOpening? {total : Nat} {quote : Option Char} {body : Text}
    {opening : HeredocOpening} (h : labelOpening? total quote body = some opening) :
    IsLabel opening.label := by
  unfold labelOpening? at h
  simp only at h
  split at h
  · next hfirst =>
    split at h
    · cases h
    · split at h
      · cases h
        refine ⟨?_, fun c hc => List.mem_takeWhile_imp hc⟩
        intro hnil
        simp only at hnil
        rw [hnil] at hfirst
        cases hfirst
      · cases h
  · cases h

/-- The label of a heredoc is a name. -/
theorem isLabel_of_heredocOpening? {x : Text} {opening : HeredocOpening}
    (h : heredocOpening? x = some opening) : IsLabel opening.label := by
  rw [heredocOpening?_eq] at h
  obtain ⟨mark, -, h⟩ := Option.bind_eq_some_iff.mp h
  exact isLabel_of_labelOpening? h

namespace Twins

variable {n : Nat} {x y : Text}

/-- Behind a label twins have the same closing quote or none, and their ends have the same first
character. -/
theorem lineEnd?_eq {quote : Option Char} (hquote : quote ≠ some '/') (h : Twins n x y) :
    (lineEnd? quote x = none ∧ lineEnd? quote y = none) ∨
      ∃ k x' y', lineEnd? quote x = some x' ∧ lineEnd? quote y = some y' ∧ x'.head? = y'.head? ∧
        x.length = k + x'.length ∧ y.length = k + y'.length := by
  cases quote with
  | none => exact .inr ⟨0, x, y, rfl, rfl, h.head?_eq, by simp, by simp⟩
  | some q =>
    have hq : '/' ∉ [q] := by
      intro hmem
      exact hquote (by rw [List.mem_singleton.mp hmem])
    rcases h.isPrefixOf?_eq hq with hnone | ⟨m, x', y', hx, hy, htwins, rfl, rfl, -⟩
    · exact .inl hnone
    · exact .inr ⟨1, x', y', hx, hy, htwins.head?_eq, by simp [Nat.add_comm], by simp [Nat.add_comm]⟩

/-- In twins the same label stands behind the opening, as far from the beginning. -/
theorem labelOpening?_eq {quote : Option Char} (hquote : quote ≠ some '/') (k : Nat)
    (h : Twins n x y) :
    labelOpening? (k + x.length) quote x = labelOpening? (k + y.length) quote y := by
  obtain ⟨hlabel, hle⟩ := h.takeWhile_eq not_isVarPart_slash
  obtain ⟨-, hafter⟩ := h.drop hle
  obtain ⟨hx, hy⟩ := h.length_le
  unfold labelOpening?
  rw [← hlabel]
  generalize x.takeWhile isVarPart = label at hle hafter
  rcases hafter.lineEnd?_eq hquote with ⟨hx', hy'⟩ | ⟨j, x', y', hx', hy', hhead, hxlen, hylen⟩
  · simp only [hx', hy']
  · rw [List.length_drop] at hxlen hylen
    have hlen : k + x.length - x'.length = k + y.length - y'.length := by omega
    simp only [hx', hy', hhead, hlen]

/-- In twins the label of a heredoc has the same quotes, and what follows them are twins. -/
theorem labelQuote_eq (h : Twins n x y) : ∃ quote k m x' y', labelQuote x = (quote, x') ∧
    labelQuote y = (quote, y') ∧ quote ≠ some '/' ∧ Twins m x' y' ∧ x.length = k + x'.length ∧
      y.length = k + y'.length := by
  have hhead := h.head?_eq
  rcases labelQuote_cases x with ⟨body, rfl, hquote⟩ | ⟨body, rfl, hquote⟩ | ⟨hdouble, hsingle, hquote⟩
  · cases h with
    | cons c h => exact ⟨_, 1, _, _, _, hquote, rfl, by simp, h, by simp [Nat.add_comm], by simp [Nat.add_comm]⟩
  · cases h with
    | cons c h => exact ⟨_, 1, _, _, _, hquote, rfl, by simp, h, by simp [Nat.add_comm], by simp [Nat.add_comm]⟩
  · rw [hhead] at hdouble hsingle
    have hy : labelQuote y = (none, y) := by
      rcases labelQuote_cases y with ⟨body, rfl, -⟩ | ⟨body, rfl, -⟩ | ⟨-, -, hy⟩
      · simp at hdouble
      · simp at hsingle
      · exact hy
    exact ⟨none, 0, n, x, y, hquote, hy, by simp, h, by simp, by simp⟩

/-- The opening of a heredoc does not go on over a comment. -/
theorem heredocOpening?_eq (h : Twins n x y) : heredocOpening? x = heredocOpening? y := by
  rw [Source.heredocOpening?_eq, Source.heredocOpening?_eq]
  rcases h.isPrefixOf?_eq (p := "<<".toList) (by decide) with
    ⟨hx, hy⟩ | ⟨m, x', y', hx, hy, htwins, rfl, rfl, -⟩
  · rw [hx, hy]
    rfl
  · rw [hx, hy, Option.bind_some, Option.bind_some]
    obtain ⟨hblanks, hle⟩ := htwins.runLength_eq (p := Text.isBlank) (by decide)
    obtain ⟨-, hrest⟩ := htwins.drop hle
    obtain ⟨hxle, hyle⟩ := htwins.length_le
    rw [← hblanks]
    generalize runLength Text.isBlank x' = b at hle hrest
    obtain ⟨quote, k, j, u, v, hu, hv, hquote, huv, hulen, hvlen⟩ := hrest.labelQuote_eq
    rw [hu, hv]
    have hlabel := huv.labelOpening?_eq hquote (2 + b + k)
    rw [List.length_drop] at hulen hvlen
    have hxtotal : ("<<".toList ++ x').length = 2 + b + k + u.length := by
      simp
      omega
    have hytotal : ("<<".toList ++ y').length = 2 + b + k + v.length := by
      simp
      omega
    rw [hxtotal, hytotal]
    exact hlabel

end Twins

/-! ## Section 4: Expressions inside strings -/

/-- An index in brackets, one character at a time: it ends with its own closing bracket and fails at
white space. -/
theorem indexLength_cons (depth : Nat) (c : Char) (x : Text) :
    indexLength depth (c :: x) =
      if c = ']' then (if depth = 0 then 1 else indexLength (depth - 1) x + 1)
      else if c = '[' then indexLength (depth + 1) x + 1
      else if c.isWhitespace then 0 else indexLength depth x + 1 := by
  conv_lhs => unfold indexLength
  split
  · next heq => cases heq
  · next heq =>
    cases heq
    cases depth with
    | zero => rfl
    | succ depth => rfl
  · next heq =>
    cases heq
    rfl
  · next c' x' hclose hopen heq =>
    cases heq
    rw [if_neg hclose, if_neg hopen]

theorem isWhitespace_of_isDocSpace {c : Char} (h : isDocSpace c = true) : c.isWhitespace = true := by
  simp only [isDocSpace, Bool.or_eq_true, beq_iff_eq] at h
  rcases h with ((rfl | rfl) | rfl) | rfl <;> rfl

/-- White space ends an index, so it reaches over the opening of a comment, but not further. -/
theorem indexLength_doc (depth : Nat) {d : Char} (hd : isDocSpace d = true) (x : Text) :
    indexLength depth ('/' :: '*' :: '*' :: d :: x) = 3 := by
  have hspace := isWhitespace_of_isDocSpace hd
  have hslash : '/'.isWhitespace = false := by decide
  have hstar : '*'.isWhitespace = false := by decide
  have hclose : d ≠ ']' := by
    rintro rfl
    cases hd
  have hopen : d ≠ '[' := by
    rintro rfl
    cases hd
  simp [indexLength_cons, hslash, hstar, hspace, hclose, hopen]

theorem accessorLength_bracket (x : Text) : accessorLength ('[' :: x) = indexLength 0 x + 1 := rfl

theorem accessorLength_plain {x : Text} (hx : x.head? ≠ some '[') :
    accessorLength x = ((accessLength "->".toList x).or (accessLength "?->".toList x)).getD 0 := by
  unfold accessorLength
  split
  · simp at hx
  · rfl

/-- A variable in a string without braces is a name and one accessor. -/
theorem expressionLength_simple {x : Text} (hx : x.head? ≠ some '\x7b') :
    expressionLength ('$' :: x) =
      runLength isVarPart x + 1 + accessorLength (x.drop (runLength isVarPart x)) := by
  unfold expressionLength
  split
  · next heq =>
    cases heq
    simp at hx
  · next heq => cases heq
  · next heq =>
    cases heq
    rfl
  · next hdollar => exact absurd rfl (hdollar x)

namespace Twins

variable {n : Nat} {x y : Text}

/-- An index reaches at most to the white space with which a comment opens. -/
theorem indexLength_eq (depth : Nat) (h : Twins n x y) :
    indexLength depth y = indexLength depth x ∧ indexLength depth x ≤ n + 3 := by
  -- induction on the shared part; an index that runs into the comment stops at the white space
  -- behind `/**`
  induction h generalizing depth with
  | nil => simp [indexLength]
  | doc x y hd hd' =>
    rw [indexLength_doc depth hd, indexLength_doc depth hd']
    exact ⟨rfl, Nat.le_refl 3⟩
  | cons c h ih =>
    rw [indexLength_cons, indexLength_cons]
    split
    · split
      · exact ⟨rfl, by omega⟩
      · have := ih (depth - 1)
        omega
    · split
      · have := ih (depth + 1)
        omega
      · split
        · exact ⟨rfl, by omega⟩
        · have := ih depth
          omega

/-- An arrow with a name is the same in twins, since neither has a `/` in it. -/
theorem accessLength_eq {arrow : Text} (harrow : '/' ∉ arrow) (h : Twins n x y) :
    accessLength arrow y = accessLength arrow x ∧ ∀ k ∈ accessLength arrow x, k ≤ n := by
  unfold accessLength
  rcases h.isPrefixOf?_eq harrow with ⟨hx, hy⟩ | ⟨m, x', y', hx, hy, htwins, -, -, rfl⟩
  · simp [hx, hy]
  · obtain ⟨hrun, hle⟩ := htwins.runLength_eq not_isVarPart_slash
    simp only [hx, hy, Option.bind_eq_bind, Option.bind_some, htwins.head?_eq, hrun]
    refine ⟨trivial, ?_⟩
    intro k hk
    obtain ⟨first, -, hk⟩ := Option.bind_eq_some_iff.mp hk
    obtain ⟨-, -, hk⟩ := Option.bind_eq_some_iff.mp hk
    cases hk
    omega

/-- An accessor is the same in twins. An index may reach three characters beyond the shared part, up
to the white space of the comment. -/
theorem accessorLength_eq (h : Twins n x y) :
    accessorLength y = accessorLength x ∧ accessorLength x ≤ n + 3 := by
  by_cases hbracket : x.head? = some '['
  · obtain ⟨z, rfl⟩ := List.head?_eq_some_iff.mp hbracket
    cases h with
    | cons c h =>
      obtain ⟨heq, hle⟩ := h.indexLength_eq 0
      rw [accessorLength_bracket, accessorLength_bracket, heq]
      exact ⟨rfl, by omega⟩
  · obtain ⟨harrow, hle⟩ := @accessLength_eq _ _ _ "->".toList (by decide) h
    obtain ⟨hmark, hle'⟩ := @accessLength_eq _ _ _ "?->".toList (by decide) h
    rw [accessorLength_plain hbracket, accessorLength_plain (by rwa [← h.head?_eq]), harrow, hmark]
    refine ⟨rfl, ?_⟩
    cases hfirst : accessLength "->".toList x with
    | some k =>
      have := hle k hfirst
      simp only [Option.some_or, Option.getD_some]
      omega
    | none =>
      cases hsecond : accessLength "?->".toList x with
      | some k =>
        have := hle' k hsecond
        simp only [Option.none_or, Option.getD_some]
        omega
      | none => simp

/-- An expression without braces reaches at most to the white space with which a comment opens. -/
theorem expressionLength_eq (h : Twins n x y) (hx : x.head? ≠ some '\x7b') :
    expressionLength ('$' :: y) = expressionLength ('$' :: x) ∧
      expressionLength ('$' :: x) ≤ n + 1 + 3 := by
  obtain ⟨hrun, hle⟩ := h.runLength_eq not_isVarPart_slash
  obtain ⟨-, hrest⟩ := h.drop hle
  obtain ⟨heq, hbound⟩ := hrest.accessorLength_eq
  rw [expressionLength_simple hx, expressionLength_simple (by rwa [← h.head?_eq]), ← hrun, heq]
  exact ⟨rfl, by omega⟩

end Twins

end Docblock.Source
