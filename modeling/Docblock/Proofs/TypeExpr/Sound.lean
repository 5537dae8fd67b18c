import Docblock.Proofs.Lexeme.Passing
import Docblock.Proofs.TypeExpr.Grammar

/-!
# Readers obey the grammar

Whatever a reader of types returns is spelled by the words that it passed, and what it leaves is
clear of the joints of that spelling: a reader stops only where it has to.

The lemmas follow the readers of `Docblock.TypeExpr.Parser` one by one.  Each takes what it needs
of the reader `inner` as a hypothesis, and `sound_readerTo` closes the recursion.
-/

namespace Docblock

open Lexeme (words)

/-- What the reader returns is spelled by the words it passed, and it stopped where it had to. -/
def Reader.Sound {α : Type} (r : Reader α) (G : Grammar α) : Prop :=
  ∀ ⦃ts : List Lexeme⦄ ⦃x : α⦄ ⦃rest : List Lexeme⦄, r ts = .ok (x, rest) →
    ∃ ws js, Passes ts ws rest ∧ G x ws js ∧ Clear js (words rest)

theorem Joint.meets_words {kind : Kind} {ts : List Lexeme} :
    (Joint.word kind).meets (words ts) = Reader.at? kind ts := by
  cases ts <;> rfl

namespace TypeExpr

open Reader

variable {ts rest : List Lexeme}

/-! ## Section 1: Leaves

These readers hand back a part of their input as it is, so what they pass is a front of it. -/

/-- What is skipped is a mark, and without one none follows. -/
theorem exists_mark {kind : Kind} {b : Bool} (h : skip kind ts = (b, rest)) :
    ∃ pre, ts = pre ++ rest ∧ Mark kind b (words pre) ∧ (b = false → at? kind rest = false) := by
  cases b with
  | true =>
    obtain ⟨t, rfl, ht⟩ := skip_eq_true.mp h
    exact ⟨[t], rfl, .present ht, nofun⟩
  | false =>
    obtain ⟨rfl, hat⟩ := skip_eq_false.mp h
    exact ⟨[], rfl, .absent, fun _ => hat⟩

/-- The parts of a name that are read are spelled, and no backslash follows. -/
theorem exists_spelledParts {parts : List Text} (h : nameParts ts = .ok (parts, rest)) :
    ∃ pre, ts = pre ++ rest ∧ SpelledParts parts (words pre) [.word .backslash] ∧
      at? .backslash rest = false := by
  fun_induction nameParts ts generalizing parts with
  | case1 t ht u rest' hu ih =>
    -- the name goes on behind a backslash
    rw [bind_eq_ok] at h
    obtain ⟨⟨parts', rest''⟩, hparts, h⟩ := h
    cases h
    obtain ⟨pre, rfl, hpre, hrest⟩ := ih hparts
    exact ⟨t :: u :: pre, rfl, .cons (w := t.word) (b := u.word) ht hu hpre, hrest⟩
  | case2 t ht u rest' hu =>
    -- another lexeme ends the name
    cases h
    exact ⟨[t], rfl, .last (w := t.word) ht, by simpa using hu⟩
  | case3 t ht =>
    -- the name ends with the lexemes
    cases h
    exact ⟨[t], rfl, .last (w := t.word) ht, rfl⟩
  | case4 t rest' ht => cases h
  | case5 => cases h

/-- So is a name, absolute or relative. -/
theorem exists_spelledName {n : Name} (h : nameReader ts = .ok (n, rest)) :
    ∃ pre, ts = pre ++ rest ∧ SpelledName n (words pre) [.word .backslash] ∧
      at? .backslash rest = false := by
  unfold nameReader at h
  cases hskip : skip .backslash ts with
  | mk absolute us =>
    rw [hskip] at h
    rw [bind_eq_ok] at h
    obtain ⟨⟨parts, rest'⟩, hparts, h⟩ := h
    cases h
    obtain ⟨pre, rfl, hpre, hrest⟩ := exists_spelledParts hparts
    cases absolute with
    | true =>
      obtain ⟨b, rfl, hb⟩ := skip_eq_true.mp hskip
      exact ⟨b :: pre, rfl, .absolute hb hpre, hrest⟩
    | false =>
      obtain ⟨rfl, -⟩ := skip_eq_false.mp hskip
      exact ⟨pre, rfl, .relative hpre, hrest⟩

/-- So is the name of a constant; behind one without an asterisk no asterisk follows. -/
theorem exists_spelledConstant {name : Text} (h : constantName ts = .ok (name, rest)) :
    ∃ pre js, ts = pre ++ rest ∧ SpelledConstant name (words pre) js ∧ Clear js (words rest) := by
  unfold constantName at h
  split at h
  · next t us =>
    split at h
    · next ht =>
      cases h
      -- the asterisk alone
      exact ⟨[t], [], rfl, .any ht, clear_nil_left _⟩
    · split at h
      · next ht =>
        split at h
        · next u us' =>
          split at h
          · next hu =>
            split at h
            · next hglued =>
              cases h
              -- a name with an asterisk glued to it
              have hgap : u.gap = [] := by simpa [Lexeme.isGlued] using hglued
              exact ⟨[t, u], [], rfl, .ending (w := t.word) (a := u.word) ht hu hgap,
                clear_nil_left _⟩
            · cases h
          · next hu =>
            cases h
            -- a name that no asterisk follows
            exact ⟨[t], [.word .asterisk], rfl, .exact (w := t.word) ht,
              by simpa [Joint.meets] using hu⟩
        · cases h
          exact ⟨[t], [.word .asterisk], rfl, .exact (w := t.word) ht, clear_nil_right _⟩
      · cases h
  · cases h

/-- The binder of a parameter is missing, or is spelled out. -/
theorem exists_spelledBinder {named byRef variadic : Bool} {name : Option Text}
    (h : binder named ts = .ok ((byRef, variadic, name), rest)) :
    (named = false ∧ byRef = false ∧ variadic = false ∧ name = none ∧ rest = ts ∧
        at? .amp ts = false ∧ at? .ellipsis ts = false ∧ at? .var ts = false) ∨
      ∃ x pre, name = some x ∧ ts = pre ++ rest ∧ SpelledBinder (byRef, variadic, x) (words pre) := by
  unfold binder at h
  cases hamp : skip .amp ts with
  | mk byRef' us =>
    cases hell : skip .ellipsis us with
    | mk variadic' vs =>
      rw [hamp] at h
      simp only [hell] at h
      obtain ⟨as, rfl, has, hasAt⟩ := exists_mark hamp
      obtain ⟨es, rfl, hes, hesAt⟩ := exists_mark hell
      -- without a variable there may be no mark either
      have hbare (hno : at? .var vs = false)
          (hmarks : (named || byRef' || variadic') = false)
          (hout : (byRef', variadic', none) = (byRef, variadic, name) ∧ vs = rest) :
          named = false ∧ byRef = false ∧ variadic = false ∧ name = none ∧ rest = as ++ (es ++ vs) ∧
            at? .amp (as ++ (es ++ vs)) = false ∧ at? .ellipsis (as ++ (es ++ vs)) = false ∧
            at? .var (as ++ (es ++ vs)) = false := by
        obtain ⟨hout, rfl⟩ := hout
        cases hout
        simp only [Bool.or_eq_false_iff] at hmarks
        obtain ⟨⟨hnamed, rfl⟩, rfl⟩ := hmarks
        cases has' : as with
        | cons => rw [has'] at has; cases has
        | nil =>
          cases hes' : es with
          | cons => rw [hes'] at hes; cases hes
          | nil =>
            subst has' hes'
            exact ⟨hnamed, rfl, rfl, rfl, rfl, hasAt rfl, hesAt rfl, hno⟩
      split at h
      · next t rest' =>
        split at h
        · next ht =>
          cases h
          refine .inr ⟨_, as ++ es ++ [t], rfl, by simp, ?_⟩
          simpa using SpelledBinder.mk has hes (v := t.word) ht
        · next ht =>
          split at h
          · cases h
          · next hmarks =>
            cases h
            exact .inl (hbare (by simpa using ht) (by simpa using hmarks) ⟨rfl, rfl⟩)
      · split at h
        · cases h
        · next hmarks =>
          cases h
          exact .inl (hbare rfl (by simpa using hmarks) ⟨rfl, rfl⟩)

/-- A default value is one lexeme of the right kind. -/
theorem exists_default {value : Text} (h : defaultValue ts = .ok (value, rest)) :
    ∃ d, ts = d :: rest ∧ isDefault d.kind = true ∧ d.text = value := by
  unfold defaultValue at h
  split at h
  · next t us =>
    split at h
    · next ht =>
      cases h
      exact ⟨t, rfl, ht, rfl⟩
    · cases h
  · cases h

/-! ## Section 2: Items between brackets -/

/-- Items that are read up to a closing bracket are spelled. -/
theorem exists_spelledItems {α : Type} {item : Reader α} {Item : Grammar α} (hitem : item.Sound Item)
    {close : Kind} {xs : List α} (h : list item close ts = .ok (xs, rest)) :
    ∃ ws, Passes ts ws rest ∧ SpelledItems Item close xs ws := by
  unfold list at h
  generalize ts.length + 1 = n at h
  -- induction on the bound, which goes down with every item
  induction n generalizing ts xs with
  | zero => cases h
  | succ n ih =>
    simp only [listUpTo] at h
    rw [bind_eq_ok] at h
    obtain ⟨⟨x, us⟩, hx, h⟩ := h
    obtain ⟨ws, js, hpass, hws, -⟩ := hitem hx
    simp only at h
    split at h
    · -- a comma: either the end follows it, or more items
      next us' hskip =>
      obtain ⟨m, rfl, hm⟩ := skip_eq_true.mp hskip
      split at h
      · next hat =>
        obtain ⟨c, us, rfl, hc⟩ := at?_eq_true.mp hat
        cases h
        exact ⟨_, hpass.trans (.step m (.step c (.done _))), .trailing hws hm hc⟩
      · rw [bind_eq_ok] at h
        obtain ⟨⟨others, rest'⟩, hothers, h⟩ := h
        cases h
        obtain ⟨vs, hpass', hvs⟩ := ih hothers
        exact ⟨_, hpass.trans (.step m hpass'), .cons hws hm hvs⟩
    · -- no comma: the end must follow
      next us' hskip =>
      obtain ⟨rfl, -⟩ := skip_eq_false.mp hskip
      rw [bind_eq_ok] at h
      obtain ⟨⟨c, rest'⟩, hc, h⟩ := h
      cases h
      rw [expect_eq_ok] at hc
      obtain ⟨rfl, hc⟩ := hc
      exact ⟨_, hpass.trans (.step c (.done _)), .last hws hc⟩

/-! ## Section 3: The readers of types -/

section Inner

variable {inner : Reader TypeExpr} {Inner : Grammar TypeExpr}

/-- The entry of a shape is spelled. -/
theorem sound_entry (hinner : inner.Sound Inner) : (entry inner).Sound (SpelledEntry Inner) := by
  intro ts x rest h
  unfold entry at h
  split at h
  · next t us =>
    split at h
    · next ht =>
      cases hskip : skip .question us with
      | mk optional us' =>
        rw [hskip] at h
        rw [bind_eq_ok] at h
        obtain ⟨⟨c, us''⟩, hc, h⟩ := h
        rw [bind_eq_ok] at h
        obtain ⟨⟨ty, rest'⟩, hty, h⟩ := h
        cases h
        obtain ⟨qs, rfl, hqs, -⟩ := exists_mark hskip
        rw [expect_eq_ok] at hc
        obtain ⟨rfl, hc⟩ := hc
        obtain ⟨ws, js, hpass, hws, hclear⟩ := hinner hty
        exact ⟨_, js, .step t ((Passes.of_append qs _).trans (.step c hpass)),
          .mk (k := t.word) (c := c.word) ht hqs hc hws, hclear⟩
    · cases h
  · cases h

/-- So are the braces of a shape; without any, no brace follows. -/
theorem sound_entries (hinner : inner.Sound Inner) :
    (entries inner).Sound (SpelledEntries Inner) := by
  intro ts es rest h
  unfold entries at h
  split at h
  · next us hskip =>
    obtain ⟨l, rfl, hl⟩ := skip_eq_true.mp hskip
    obtain ⟨ws, hpass, hws⟩ := exists_spelledItems (sound_entry hinner) h
    exact ⟨_, [], .step l hpass, .some (l := l.word) hl hws, clear_nil_left _⟩
  · next us hskip =>
    obtain ⟨rfl, hat⟩ := skip_eq_false.mp hskip
    cases h
    exact ⟨_, _, .done _, .none, by simpa [Joint.meets_words] using hat⟩

/-- So is the parameter of a tag. -/
theorem sound_tagParam (hinner : inner.Sound Inner) :
    (tagParam inner).Sound (SpelledTagParam Inner) := by
  intro ts p rest h
  unfold tagParam at h
  rw [bind_eq_ok] at h
  obtain ⟨⟨ty, us⟩, hty, h⟩ := h
  rw [bind_eq_ok] at h
  obtain ⟨⟨⟨byRef, variadic, name⟩, rest'⟩, hbinder, h⟩ := h
  cases h
  obtain ⟨ws, js, hpass, hws, hclear⟩ := hinner hty
  obtain ⟨hnamed, -⟩ | ⟨x, pre, rfl, rfl, hpre⟩ := exists_spelledBinder hbinder
  · cases hnamed
  · rw [Lexeme.words_append] at hclear
    exact ⟨_, [], hpass.trans (Passes.of_append pre _), .mk hws hpre hclear.of_append,
      clear_nil_left _⟩

/-- So is the parameter of a callable, in each of its three forms. -/
theorem sound_signatureParam (hinner : inner.Sound Inner) :
    (signatureParam inner).Sound (SpelledParam Inner) := by
  intro ts p rest h
  unfold signatureParam at h
  rw [bind_eq_ok] at h
  obtain ⟨⟨ty, us⟩, hty, h⟩ := h
  rw [bind_eq_ok] at h
  obtain ⟨⟨⟨byRef, variadic, name⟩, rest'⟩, hbinder, h⟩ := h
  obtain ⟨ws, js, hpass, hws, hclear⟩ := hinner hty
  obtain ⟨-, rfl, rfl, rfl, rfl, h₁, h₂, h₃⟩ | ⟨x, pre, rfl, rfl, hpre⟩ :=
    exists_spelledBinder hbinder
  · -- no binder, and so no default either
    cases h
    refine ⟨ws, _, hpass, .bare hws, ?_⟩
    simpa [Joint.meets_words, h₁, h₂, h₃] using hclear
  · -- a binder, after which a default may stand
    rw [Lexeme.words_append] at hclear
    simp only [Option.isSome_some, Bool.true_and] at h
    split at h
    · next hat =>
      obtain ⟨e, us, rfl, he⟩ := at?_eq_true.mp hat
      rw [bind_eq_ok] at h
      obtain ⟨⟨value, rest''⟩, hvalue, h⟩ := h
      cases h
      obtain ⟨d, hd, hdefault, rfl⟩ := exists_default hvalue
      obtain rfl : us = d :: _ := hd
      refine ⟨ws ++ words pre ++ [e.word, d.word], [], ?_, ?_, clear_nil_left _⟩
      · exact (hpass.trans (Passes.of_append pre _)).trans (.step e (.step d (.done _)))
      · exact .default (d := d.word) hws hpre hclear.of_append he hdefault
    · next hat =>
      cases h
      refine ⟨_, _, hpass.trans (Passes.of_append pre _), .named hws hpre hclear.of_append, ?_⟩
      simpa [Joint.meets_words] using hat

/-- So are the parameters between parentheses. -/
theorem sound_signature (hinner : inner.Sound Inner) {ps : List (Param TypeExpr)}
    (h : signature inner ts = .ok (ps, rest)) :
    ∃ ws, Passes ts ws rest ∧ SpelledSignature Inner ps ws := by
  unfold signature at h
  split at h
  · next hat =>
    obtain ⟨r, us, rfl, hr⟩ := at?_eq_true.mp hat
    cases h
    exact ⟨_, .step r (.done _), .empty (r := r.word) hr⟩
  · obtain ⟨ws, hpass, hws⟩ := exists_spelledItems (sound_signatureParam hinner) h
    exact ⟨ws, hpass, .params hws⟩

/-- So is what follows the word `callable`. -/
theorem sound_callableTail (hinner : inner.Sound Inner) :
    (callableTail inner).Sound (SpelledCallable Inner) := by
  intro ts ty rest h
  unfold callableTail at h
  split at h
  · -- a signature, and perhaps a result behind its colon
    next us hskip =>
    obtain ⟨l, rfl, hl⟩ := skip_eq_true.mp hskip
    rw [bind_eq_ok] at h
    obtain ⟨⟨ps, us'⟩, hps, h⟩ := h
    obtain ⟨ws, hpass, hws⟩ := sound_signature hinner hps
    simp only at h
    split at h
    · next us'' hcolon =>
      obtain ⟨c, rfl, hc⟩ := skip_eq_true.mp hcolon
      rw [bind_eq_ok] at h
      obtain ⟨⟨r, rest'⟩, hr, h⟩ := h
      cases h
      obtain ⟨vs, js, hpass', hvs, hclear⟩ := hinner hr
      exact ⟨_, js, .step l (hpass.trans (.step c hpass')),
        .result (l := l.word) (c := c.word) hl hws hc hvs, hclear⟩
    · next us'' hcolon =>
      obtain ⟨rfl, hat⟩ := skip_eq_false.mp hcolon
      cases h
      exact ⟨_, _, .step l hpass, .plain (l := l.word) hl hws,
        by simpa [Joint.meets_words] using hat⟩
  · -- the word alone
    next us hskip =>
    obtain ⟨rfl, hat⟩ := skip_eq_false.mp hskip
    cases h
    exact ⟨_, _, .done _, .bare, by simpa [Joint.meets_words] using hat⟩

/-- So is the word a type begins with and what belongs to it. -/
theorem sound_head (hinner : inner.Sound Inner) : (head inner).Sound (SpelledHead Inner) := by
  intro ts x rest h
  have hnamed {n : Name} {rest : List Lexeme} (hn : nameReader ts = .ok (n, rest)) :
      ∃ ws js, Passes ts ws rest ∧ SpelledHead Inner (.named n, true) ws js ∧
        Clear js (words rest) := by
    obtain ⟨pre, rfl, hpre, hat⟩ := exists_spelledName hn
    exact ⟨_, _, Passes.of_append pre _, .named hpre, by simpa [Joint.meets_words] using hat⟩
  unfold head at h
  split at h
  · cases h
  · next t us =>
    split at h
    · -- an array or its shape
      next ht =>
      rw [bind_eq_ok] at h
      obtain ⟨⟨es, rest'⟩, hes, h⟩ := h
      cases h
      obtain ⟨ws, js, hpass, hws, hclear⟩ := sound_entries hinner hes
      exact ⟨_, js, .step t hpass, .array (w := t.word) ht hws, hclear⟩
    · -- an object or its shape
      next ht =>
      rw [bind_eq_ok] at h
      obtain ⟨⟨es, rest'⟩, hes, h⟩ := h
      cases h
      obtain ⟨ws, js, hpass, hws, hclear⟩ := sound_entries hinner hes
      exact ⟨_, js, .step t hpass, .object (w := t.word) ht hws, hclear⟩
    · -- a callable
      next ht =>
      rw [bind_eq_ok] at h
      obtain ⟨⟨ty, rest'⟩, hty, h⟩ := h
      cases h
      obtain ⟨ws, js, hpass, hws, hclear⟩ := sound_callableTail hinner hty
      exact ⟨_, js, .step t hpass, .callable (w := t.word) ht hws, hclear⟩
    · -- the word `static`
      next ht =>
      cases h
      exact ⟨_, _, .step t (.done _), .static (w := t.word) ht, clear_nil_left _⟩
    · -- a name, with a backslash in front or without
      rw [bind_eq_ok] at h
      obtain ⟨⟨n, rest'⟩, hn, h⟩ := h
      cases h
      exact hnamed hn
    · rw [bind_eq_ok] at h
      obtain ⟨⟨n, rest'⟩, hn, h⟩ := h
      cases h
      exact hnamed hn
    · cases h

/-- So is it with its arguments; where it may have some and has none, no `<` follows. -/
theorem sound_arguments (hinner : inner.Sound Inner) {base ty : TypeExpr} {allowed : Bool}
    {us : List Lexeme} (hhead : head inner ts = .ok ((base, allowed), us))
    (h : arguments inner base allowed us = .ok (ty, rest)) :
    ∃ ws js, Passes ts ws rest ∧ SpelledApplied Inner ty ws js ∧ Clear js (words rest) := by
  obtain ⟨ws, js, hpass, hws, hclear⟩ := sound_head hinner hhead
  unfold arguments at h
  split at h
  · -- arguments follow, and the type may take them
    next hat =>
    rw [Bool.and_eq_true] at hat
    obtain ⟨rfl, hat⟩ := hat
    obtain ⟨l, us, rfl, hl⟩ := at?_eq_true.mp hat
    rw [bind_eq_ok] at h
    obtain ⟨⟨args, rest'⟩, hargs, h⟩ := h
    cases h
    obtain ⟨vs, hpass', hvs⟩ := exists_spelledItems hinner hargs
    exact ⟨_, _, hpass.trans (.step l hpass'), .generic (l := l.word) hws hl hvs, clear_nil_left _⟩
  · -- no arguments, either because none follow or because the type takes none
    next hat =>
    cases h
    cases allowed with
    | true => exact ⟨ws, _, hpass, .plain hws, by simpa [Joint.meets_words, hclear] using hat⟩
    | false => exact ⟨ws, js, hpass, .closed hws, hclear⟩

/-- So is it with a constant of the class; without one, no `::` follows. -/
theorem sound_basic (hinner : inner.Sound Inner) (isNullable : Bool) :
    (basic inner isNullable).Sound (SpelledBasic Inner isNullable) := by
  intro ts ty rest h
  unfold basic at h
  rw [bind_eq_ok] at h
  obtain ⟨⟨⟨base, allowed⟩, us⟩, hhead, h⟩ := h
  rw [bind_eq_ok] at h
  obtain ⟨⟨base', us'⟩, hargs, h⟩ := h
  obtain ⟨ws, js, hpass, hws, hclear⟩ := sound_arguments hinner hhead hargs
  simp only [member] at h
  split at h
  · -- no constant of the type
    next us'' hskip =>
    obtain ⟨rfl, hat⟩ := skip_eq_false.mp hskip
    cases h
    exact ⟨ws, _, hpass, .plain hws, by simpa [Joint.meets_words, hclear] using hat⟩
  · -- a constant, which only a name that is not nullable may have
    next us'' hskip =>
    obtain ⟨c, rfl, hc⟩ := skip_eq_true.mp hskip
    split at h
    · next n =>
      split at h
      · cases h
      · next hnull =>
        rw [bind_eq_ok] at h
        obtain ⟨⟨name, rest'⟩, hname, h⟩ := h
        cases h
        obtain ⟨pre, ks, rfl, hpre, hclear'⟩ := exists_spelledConstant hname
        exact ⟨_, ks, hpass.trans (.step c (Passes.of_append pre _)),
          .constant (c := c.word) hws (by simpa using hnull) hc hpre, hclear'⟩
    · cases h

/-- So is a type without the brackets behind it. -/
theorem sound_primary (hinner : inner.Sound Inner) :
    (primary inner).Sound (SpelledPrimary Inner) := by
  intro ts ty rest h
  have hbasic (h : basic inner false ts = .ok (ty, rest)) :
      ∃ ws js, Passes ts ws rest ∧ SpelledPrimary Inner ty ws js ∧ Clear js (words rest) := by
    obtain ⟨ws, js, hpass, hws, hclear⟩ := sound_basic hinner false h
    exact ⟨ws, js, hpass, .basic hws, hclear⟩
  unfold primary at h
  split at h
  · cases h
  · next t us =>
    split at h
    · -- a type in parentheses
      next ht =>
      rw [bind_eq_ok] at h
      obtain ⟨⟨ty', us'⟩, hty, h⟩ := h
      rw [bind_eq_ok] at h
      obtain ⟨⟨r, rest'⟩, hr, h⟩ := h
      cases h
      rw [expect_eq_ok] at hr
      obtain ⟨rfl, hr⟩ := hr
      obtain ⟨ws, js, hpass, hws, hclear⟩ := hinner hty
      exact ⟨_, _, .step t (hpass.trans (.step r (.done _))),
        .paren (l := t.word) (r := r.word) ht hws hr, clear_nil_left _⟩
    · -- the word `this`
      next ht =>
      cases h
      exact ⟨_, _, .step t (.done _), .this (w := t.word) ht, clear_nil_left _⟩
    · -- a string
      next ht =>
      cases h
      exact ⟨_, _, .step t (.done _), .literal (w := t.word) (.inl ht), clear_nil_left _⟩
    · -- a number
      next ht =>
      cases h
      exact ⟨_, _, .step t (.done _), .literal (w := t.word) (.inr ht), clear_nil_left _⟩
    · -- a question mark
      next ht =>
      rw [bind_eq_ok] at h
      obtain ⟨⟨ty', rest'⟩, hty, h⟩ := h
      cases h
      obtain ⟨ws, js, hpass, hws, hclear⟩ := sound_basic hinner true hty
      exact ⟨_, js, .step t hpass, .nullable (q := t.word) ht hws, hclear⟩
    · -- everything a basic type may begin with
      exact hbasic h
    · exact hbasic h
    · exact hbasic h
    · exact hbasic h
    · exact hbasic h
    · exact hbasic h
    · cases h

/-- Reading brackets after a type that is spelled so far. -/
theorem sound_suffixes {ty ty' : TypeExpr} {us : List Lexeme} {ws : List Word} {js : List Joint}
    (hpass : Passes ts ws us) (hws : SpelledSuffixed Inner ty ws js) (hclear : Clear js (words us))
    (h : suffixes ty us = .ok (ty', rest)) :
    ∃ ws js, Passes ts ws rest ∧ SpelledAtomic Inner ty' ws js ∧ Clear js (words rest) := by
  fun_induction suffixes ty us generalizing ws js with
  | case1 ty l hl r us hr ih =>
    -- a pair of brackets, and perhaps more of them
    have hjs := hclear.not_mem (j := .word .lbrack) (by simp [Joint.meets, hl])
    have hpass' := hpass.trans (.step l (.step r (.done us)))
    exact ih hpass' (.array (l := l.word) (r := r.word) hws hjs hl hr) (clear_nil_left _) h
  | case2 => cases h
  | case3 => cases h
  | case4 ty t us ht =>
    -- no bracket follows
    cases h
    refine ⟨ws, _, hpass, .mk hws, clear_cons_left.mpr ⟨?_, hclear⟩⟩
    simpa [Joint.meets] using ht
  | case5 ty =>
    -- nothing is left
    cases h
    exact ⟨ws, _, hpass, .mk hws, clear_nil_right _⟩

theorem sound_atomic (hinner : inner.Sound Inner) : (atomic inner).Sound (SpelledAtomic Inner) := by
  intro ts ty rest h
  unfold atomic at h
  rw [bind_eq_ok] at h
  obtain ⟨⟨ty', us⟩, hty, h⟩ := h
  obtain ⟨ws, js, hpass, hws, hclear⟩ := sound_primary hinner hty
  exact sound_suffixes hpass (.plain hws) hclear h

/-! ## Section 4: Unions and intersections

The tails of both read members as long as the operator follows, so they either find none, or leave
something that is clear of the operator.  An intersection that finds none may still draw up what
follows its `&`, and that is clear of whatever it was clear of before. -/

/-- What reading the further members of a type comes to. -/
inductive ReadMembers (Inner : Grammar TypeExpr) (operator : Kind) (joint : Joint) :
    List Lexeme → List TypeExpr → List Lexeme → Prop where
  | none {ts rest : List Lexeme} (hpass : Passes ts [] rest) (hfront : rest.head? = ts.head?)
      (hjoint : joint.meets (words rest) = false)
      (hclear : ∀ js, Clear js (words ts) → Clear js (words rest)) :
      ReadMembers Inner operator joint ts [] rest
  | some {ts rest : List Lexeme} {tys : List TypeExpr} {ws : List Word} {js : List Joint}
      (hpass : Passes ts ws rest) (hws : SpelledMembers Inner operator joint tys ws js)
      (hjoint : joint.meets (words ts) = true) (hclear : Clear js (words rest)) :
      ReadMembers Inner operator joint ts tys rest

/-- One more member in front. -/
theorem ReadMembers.cons {operator : Kind} {joint : Joint} {o : Lexeme} {us : List Lexeme}
    {ty : TypeExpr} {tys : List TypeExpr} {ws : List Word} {js : List Joint}
    (ho : o.kind = operator) (hjoint : joint.meets (words (o :: ts)) = true)
    (hpass : Passes ts ws us) (hws : SpelledAtomic Inner ty ws js) (hclear : Clear js (words us))
    (h : ReadMembers Inner operator joint us tys rest) :
    ReadMembers Inner operator joint (o :: ts) (ty :: tys) rest := by
  cases h with
  -- the member is the last one, so nothing may go on with it
  | none hpass' _ hstop hclear' =>
    have hpass'' := hpass.trans hpass'
    rw [List.append_nil] at hpass''
    exact .some (.step o hpass'') (.last (o := o.word) ho hws) hjoint
      (clear_cons_left.mpr ⟨hstop, hclear' js hclear⟩)
  | some hpass' htys hgo hclear' =>
    exact .some (.step o (hpass.trans hpass')) (.cons (o := o.word) ho hws (hclear.not_mem hgo) htys)
      hjoint hclear'

/-- The other members of a union are spelled, if the bound is the number of lexemes. -/
theorem sound_unionTail {atom : Reader TypeExpr} (hatom : atom.Sound (SpelledAtomic Inner)) {n : Nat}
    (hn : ts.length ≤ n) {tys : List TypeExpr} (h : unionTail atom n ts = .ok (tys, rest)) :
    ReadMembers Inner .bar (.word .bar) ts tys rest := by
  -- induction on the bound; a member takes at least one lexeme and its operator another
  induction n generalizing ts tys with
  | zero =>
    obtain rfl : ts = [] := List.eq_nil_of_length_eq_zero (by omega)
    cases h
    exact .none (.done _) rfl rfl fun _ h => h
  | succ n ih =>
    simp only [unionTail] at h
    split at h
    · next us hskip =>
      obtain ⟨o, rfl, ho⟩ := skip_eq_true.mp hskip
      rw [bind_eq_ok] at h
      obtain ⟨⟨ty, us'⟩, hty, h⟩ := h
      rw [bind_eq_ok] at h
      obtain ⟨⟨others, rest'⟩, hothers, h⟩ := h
      cases h
      obtain ⟨ws, js, hpass, hws, hclear⟩ := hatom hty
      have hlength := hpass.length_eq
      rw [List.length_cons] at hn
      exact .cons ho (by simp [Joint.meets, ho]) hpass hws hclear (ih (by omega) hothers)
    · next us hskip =>
      obtain ⟨rfl, hat⟩ := skip_eq_false.mp hskip
      cases h
      exact .none (.done _) rfl (by rwa [Joint.meets_words]) fun _ h => h

/-- So are those of an intersection. -/
theorem sound_intersectionTail {atom : Reader TypeExpr} (hatom : atom.Sound (SpelledAtomic Inner))
    {n : Nat} (hn : ts.length ≤ n) {tys : List TypeExpr}
    (h : intersectionTail atom n ts = .ok (tys, rest)) :
    ReadMembers Inner .amp .amp ts tys rest := by
  induction n generalizing ts tys with
  | zero =>
    obtain rfl : ts = [] := List.eq_nil_of_length_eq_zero (by omega)
    cases h
    exact .none (.done _) rfl rfl fun _ h => h
  | succ n ih =>
    simp only [intersectionTail] at h
    split at h
    · next t u us =>
      split at h
      · next ht =>
        split at h
        · next hu =>
          rw [bind_eq_ok] at h
          obtain ⟨⟨ty, us'⟩, hty, h⟩ := h
          rw [bind_eq_ok] at h
          obtain ⟨⟨others, rest'⟩, hothers, h⟩ := h
          cases h
          obtain ⟨ws, js, hpass, hws, hclear⟩ := hatom hty
          have hlength := hpass.length_eq
          simp only [List.length_cons] at hn hlength
          exact .cons ht (by simp [Joint.meets, ht, hu]) hpass hws hclear (ih (by omega) hothers)
        · next hu =>
          -- the `&` is handed back
          cases h
          have hstop : Joint.amp.meets (words (t :: u.closeUp :: us)) = false := by
            simpa [Joint.meets, Lexeme.closeUp, ht] using hu
          refine .none (.drawUp ht (.done _)) rfl hstop fun js hclear j hj => ?_
          cases j with
          | word kind => exact hclear _ hj
          | amp => exact hstop
      · -- no `&` at all
        next ht =>
        cases h
        exact .none (.done _) rfl (by simp [Joint.meets, ht]) fun _ h => h
    · -- too few lexemes are left for an `&` and a type
      next hshort =>
      cases h
      refine .none (.done _) rfl ?_ fun _ h => h
      rcases rest with _ | ⟨t, _ | ⟨u, us⟩⟩
      · rfl
      · rfl
      · exact absurd rfl (hshort t u us)

/-- A type is spelled, and neither a bar nor an intersection goes on with what the readers leave. -/
theorem sound_compound (hinner : inner.Sound Inner) :
    (compound inner).Sound (SpelledCompound Inner) := by
  intro ts ty rest h
  unfold compound at h
  rw [bind_eq_ok] at h
  obtain ⟨⟨first, us⟩, hfirst, h⟩ := h
  obtain ⟨ws, js, hpass, hws, hclear⟩ := sound_atomic hinner hfirst
  simp only at h
  split at h
  · -- a bar makes it a union
    next hat =>
    rw [bind_eq_ok] at h
    obtain ⟨⟨others, rest'⟩, hothers, h⟩ := h
    cases h
    cases sound_unionTail (sound_atomic hinner) le_rfl hothers with
    | none _ hfront hstop _ =>
      rw [Joint.meets_words, at?, hfront] at hstop
      rw [at?, hstop] at hat
      cases hat
    | some hpass' htys hjoint hclear' =>
      exact ⟨_, _, hpass.trans hpass', .union hws (hclear.not_mem hjoint) htys, hclear'⟩
  · -- otherwise it is an intersection, if another member follows
    next hat =>
    rw [bind_eq_ok] at h
    obtain ⟨⟨others, rest'⟩, hothers, h⟩ := h
    cases sound_intersectionTail (sound_atomic hinner) le_rfl hothers with
    | none hpass' hfront hstop hclear' =>
      cases h
      have hpass'' := hpass.trans hpass'
      rw [List.append_nil] at hpass''
      have hbar : (Joint.word .bar).meets (words rest') = false := by
        rw [Joint.meets_words, at?, hfront]
        simpa [at?] using hat
      exact ⟨_, _, hpass'', .single hws,
        clear_cons_left.mpr ⟨hbar, clear_cons_left.mpr ⟨hstop, hclear' js hclear⟩⟩⟩
    | some hpass' htys hjoint hclear' =>
      have hothers : others.isEmpty = false := by
        cases htys <;> rfl
      simp only [hothers] at h
      cases h
      exact ⟨_, _, hpass.trans hpass', .intersection hws (hclear.not_mem hjoint) htys, hclear'⟩

theorem sound_readerTo (depth : Nat) : (readerTo depth).Sound (Spelled depth) := by
  induction depth with
  | zero => intro ts ty rest h; cases h
  | succ depth ih => exact sound_compound ih

end Inner

end TypeExpr

end Docblock
