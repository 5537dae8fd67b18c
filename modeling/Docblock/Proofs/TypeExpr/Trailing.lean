import Docblock.Proofs.Text.Trim
import Docblock.Proofs.TypeExpr.Sound

/-!
# Readers do not mind a carriage return at the end

A line that ends in a carriage return has a little more text at its end: the return continues the
last word if that is other text, and is a word by itself if not.  No reader of types asks for other
text anywhere, so it stops where it stops without the return.  What it leaves has the return at its
end, and trimming takes that off.

One thing does change, and that is how many lexemes there are.  The readers of lists and of members
count them to bound what they read, so for these the bounds of the two runs are kept apart.

## Contents

1. `Trailed`: words, and the same words with a return behind them.
2. `Reader.Steady`: readers that do not mind; single lexemes and lists.
3. `steady_readerTo`: the readers of types.
-/

namespace Docblock

open Lexeme (words)
open Text (Blanks)

/-! ## Section 1: A return behind some words -/

/-- The second words are the first ones with a carriage return behind them. -/
inductive Trailed : List Word → List Word → Prop where
  | behind {gap : Text} (hgap : Blanks gap) : Trailed [] [⟨.other, ['\r'], gap⟩]
  | within {text gap : Text} : Trailed [⟨.other, text, gap⟩] [⟨.other, text ++ ['\r'], gap⟩]
  | cons {ws vs : List Word} (w : Word) (h : Trailed ws vs) : Trailed (w :: ws) (w :: vs)

namespace Trailed

variable {ws vs : List Word} {ts us : List Lexeme} {t : Lexeme}

theorem append (h : Trailed ws vs) (a : List Word) : Trailed (a ++ ws) (a ++ vs) := by
  induction a with
  | nil => exact h
  | cons w a ih => exact .cons w ih

/-- The last word is the return, or ends in it. -/
theorem exists_concat (h : Trailed ws vs) : ∃ vs' w, vs = vs' ++ [w] ∧ w.kind = .other := by
  induction h with
  | behind => exact ⟨[], _, rfl, rfl⟩
  | within => exact ⟨[], _, rfl, rfl⟩
  | cons w _ ih =>
    obtain ⟨vs', v, rfl, hv⟩ := ih
    exact ⟨w :: vs', v, rfl, hv⟩

/-- The return is no delimiter. -/
theorem closeDoc_iff (h : Trailed ws vs) :
    (∀ w ∈ vs, w.kind ≠ .closeDoc) ↔ ∀ w ∈ ws, w.kind ≠ .closeDoc := by
  induction h with
  | behind => simp
  | within => simp
  | cons w _ ih => rw [List.forall_mem_cons, List.forall_mem_cons, ih]

/-- The return comes last in the text of the words, with nothing but blanks before it. -/
theorem exists_source (h : Trailed ws vs) :
    ∃ e, Blanks e ∧ Word.source vs = Word.source ws ++ (e ++ ['\r']) := by
  induction h with
  | @behind gap hgap => exact ⟨gap, hgap, by simp⟩
  | within => exact ⟨[], by simp [Blanks], by simp⟩
  | cons w _ ih =>
    obtain ⟨e, he, hsource⟩ := ih
    exact ⟨e, he, by simp [hsource]⟩

/-- Behind no words at all the return stands alone. -/
theorem of_nil (h : Trailed (words []) (words us)) : ∃ u, us = [u] ∧ u.kind = .other := by
  generalize hvs : words us = vs at h
  cases h with
  | behind =>
    obtain ⟨u, rfl, hu⟩ := Lexeme.words_eq_singleton.mp hvs
    exact ⟨u, rfl, congrArg Word.kind hu⟩

/-- The first lexeme has the same kind, and it is the same lexeme unless it is other text. -/
theorem of_cons (h : Trailed (words (t :: ts)) (words us)) :
    ∃ u us', us = u :: us' ∧ u.kind = t.kind ∧
      (t.kind ≠ .other → u.word = t.word ∧ Trailed (words ts) (words us')) := by
  generalize hws : words (t :: ts) = ws at h
  generalize hvs : words us = vs at h
  rw [Lexeme.words_cons] at hws
  -- the return is in the first word only if that is other text and the last word
  cases h with
  | behind => cases hws
  | within =>
    obtain ⟨u, rfl, hu⟩ := Lexeme.words_eq_singleton.mp hvs
    obtain ⟨ht, -⟩ := List.cons.inj hws
    have hother : t.kind = .other := congrArg Word.kind ht
    refine ⟨u, [], rfl, (congrArg Word.kind hu).trans hother.symm, ?_⟩
    intro hne
    exact absurd hother hne
  | cons w h =>
    obtain ⟨rfl, rfl⟩ := List.cons.inj hws
    obtain ⟨u, us', rfl, hu, rfl⟩ := Lexeme.words_eq_cons.mp hvs
    exact ⟨u, us', rfl, congrArg Word.kind hu, fun _ => ⟨hu, h⟩⟩

/-- The first lexeme stands as far from what is before it. -/
theorem isGlued_head (h : Trailed (words (t :: ts)) (words us)) :
    us.head?.any Lexeme.isGlued = t.isGlued := by
  generalize hws : words (t :: ts) = ws at h
  generalize hvs : words us = vs at h
  rw [Lexeme.words_cons] at hws
  -- the return stands at the end of a word and does not touch the gap in front of it
  cases h with
  | behind => cases hws
  | within =>
    obtain ⟨u, rfl, hu⟩ := Lexeme.words_eq_singleton.mp hvs
    obtain ⟨ht, -⟩ := List.cons.inj hws
    have hgap : u.gap = t.gap := (congrArg Word.gap hu).trans (congrArg Word.gap ht).symm
    simp [Lexeme.isGlued, hgap]
  | cons w h =>
    obtain ⟨rfl, rfl⟩ := List.cons.inj hws
    obtain ⟨u, us', rfl, hu, rfl⟩ := Lexeme.words_eq_cons.mp hvs
    have hgap : u.gap = t.gap := congrArg Word.gap hu
    simp [Lexeme.isGlued, hgap]

/-- Closing up the first lexeme leaves the return where it is. -/
theorem closeUp {u : Lexeme} (h : Trailed (words (t :: ts)) (words (u :: us))) :
    Trailed (words (t.closeUp :: ts)) (words (u.closeUp :: us)) := by
  obtain ⟨v, vs, heq, hkind, hsame⟩ := h.of_cons
  obtain ⟨rfl, rfl⟩ := List.cons.inj heq
  generalize hws : words (t :: ts) = ws at h
  generalize hvs : words (u :: us) = vs at h
  rw [Lexeme.words_cons] at hws hvs
  cases h with
  | behind => cases hws
  | @within text gap =>
    -- the return belongs to this very word, which is other text
    obtain ⟨ht, hts⟩ := List.cons.inj hws
    obtain ⟨hu, hus⟩ := List.cons.inj hvs
    have ht' : t.closeUp.word = ⟨.other, text, []⟩ := by
      rw [show t.closeUp.word = { t.word with gap := [] } from rfl, ht]
    have hu' : u.closeUp.word = ⟨.other, text ++ ['\r'], []⟩ := by
      rw [show u.closeUp.word = { u.word with gap := [] } from rfl, hu]
    rw [Lexeme.words_cons, Lexeme.words_cons, ht', hu', hts, hus]
    exact .within
  | cons w h =>
    obtain ⟨rfl, rfl⟩ := List.cons.inj hws
    obtain ⟨hu, rfl⟩ := List.cons.inj hvs
    have hclose : u.closeUp.word = t.closeUp.word := by
      rw [show u.closeUp.word = { u.word with gap := [] } from rfl, hu]
      rfl
    rw [Lexeme.words_cons, Lexeme.words_cons, hclose]
    exact .cons _ h

/-- A return by itself may be drawn up, because the gap in front of it may be any. -/
theorem closeUp_of_nil {u : Lexeme} (h : Trailed (words []) (words [u])) :
    Trailed (words []) (words [u.closeUp]) := by
  generalize hvs : words [u] = vs at h
  rw [Lexeme.words_cons] at hvs
  cases h with
  | behind =>
    obtain ⟨hu, -⟩ := List.cons.inj hvs
    have hclose : u.closeUp.word = ⟨.other, ['\r'], []⟩ := by
      rw [show u.closeUp.word = { u.word with gap := [] } from rfl, hu]
    rw [Lexeme.words_cons, hclose]
    exact .behind (by simp [Blanks])

end Trailed

/-! ## Section 2: Single lexemes and lists -/

/-- Both outcomes are the same tree, with a return behind what is left in the second; or both are
refusals. -/
inductive Tracks {α : Type} :
    Except Fault (α × List Lexeme) → Except Fault (α × List Lexeme) → Prop where
  | ok {x : α} {rest rest' : List Lexeme} (h : Trailed (words rest) (words rest')) :
      Tracks (.ok (x, rest)) (.ok (x, rest'))
  | error {f f' : Fault} : Tracks (.error f) (.error f')

/-- The reader does not mind a return behind what it reads. -/
def Reader.Steady {α : Type} (r : Reader α) : Prop :=
  ∀ ⦃ts us : List Lexeme⦄, Trailed (words ts) (words us) → Tracks (r ts) (r us)

/-- The reader leaves no more than it was given. -/
def Reader.Bounded {α : Type} (r : Reader α) : Prop :=
  ∀ ⦃ts : List Lexeme⦄ ⦃x : α⦄ ⦃rest : List Lexeme⦄, r ts = .ok (x, rest) →
    rest.length ≤ ts.length

theorem Reader.Sound.bounded {α : Type} {r : Reader α} {G : Grammar α} (h : r.Sound G) :
    r.Bounded := by
  intro ts x rest hr
  obtain ⟨ws, js, hpass, -, -⟩ := h hr
  have hlength := hpass.length_eq
  omega

variable {α β : Type}

/-- Two runs that track each other go on tracking each other when what follows them does. -/
theorem Tracks.bind {x y : Except Fault (α × List Lexeme)}
    {f g : α × List Lexeme → Except Fault (β × List Lexeme)} (h : Tracks x y)
    (hfg : ∀ a rest rest', x = .ok (a, rest) → y = .ok (a, rest') →
      Trailed (words rest) (words rest') → Tracks (f (a, rest)) (g (a, rest'))) :
    Tracks (x >>= f) (y >>= g) := by
  cases h with
  | ok h => exact hfg _ _ _ rfl rfl h
  | error => exact .error

namespace Reader

variable {k : Kind} {ts us : List Lexeme}

/-- Both runs stand at the same kind of lexeme, if it is not other text that is asked for. -/
theorem at?_trailed (hkind : k ≠ .other) (h : Trailed (words ts) (words us)) :
    at? k us = at? k ts := by
  cases ts with
  | nil =>
    obtain ⟨u, rfl, hu⟩ := h.of_nil
    rw [at?_cons, at?_nil, hu]
    simpa using hkind.symm
  | cons t ts =>
    obtain ⟨u, us, rfl, hu, -⟩ := h.of_cons
    rw [at?_cons, at?_cons, hu]

/-- What stands behind a lexeme that was asked for. -/
theorem tail_trailed (hkind : k ≠ .other) (hat : at? k ts = true)
    (h : Trailed (words ts) (words us)) : Trailed (words ts.tail) (words us.tail) := by
  obtain ⟨t, ts, rfl, ht⟩ := at?_eq_true.mp hat
  obtain ⟨u, us, rfl, -, hsame⟩ := h.of_cons
  exact (hsame (by rw [ht]; exact hkind)).2

/-- Both runs skip a lexeme or none does. -/
theorem skip_trailed (hkind : k ≠ .other) (h : Trailed (words ts) (words us)) :
    ∃ b rest rest', skip k ts = (b, rest) ∧ skip k us = (b, rest') ∧
      Trailed (words rest) (words rest') := by
  cases hat : at? k ts with
  | true =>
    have htail := tail_trailed hkind hat h
    obtain ⟨t, ts, rfl, ht⟩ := at?_eq_true.mp hat
    obtain ⟨u, us, rfl, hu, -⟩ := h.of_cons
    exact ⟨true, ts, us, skip_cons ht, skip_cons (hu.trans ht), htail⟩
  | false =>
    have hat' : at? k us = false := (at?_trailed hkind h).trans hat
    exact ⟨false, ts, us, skip_of_at? hat, skip_of_at? hat', h⟩

/-- A lexeme that is skipped is one lexeme less. -/
theorem skip_length {b : Bool} {rest : List Lexeme} (h : skip k ts = (b, rest)) :
    rest.length + b.toNat = ts.length := by
  cases b with
  | true =>
    obtain ⟨t, rfl, -⟩ := skip_eq_true.mp h
    rfl
  | false =>
    obtain ⟨rfl, -⟩ := skip_eq_false.mp h
    rfl

/-- A step that expects a lexeme and goes on with its text. -/
theorem expect_trailed (hkind : k ≠ .other) (h : Trailed (words ts) (words us))
    {f g : Lexeme × List Lexeme → Except Fault (β × List Lexeme)}
    (hfg : ∀ t u rest rest', u.text = t.text → Trailed (words rest) (words rest') →
      Tracks (f (t, rest)) (g (u, rest'))) :
    Tracks (expect k ts >>= f) (expect k us >>= g) := by
  cases ts with
  | nil =>
    obtain ⟨u, rfl, hu⟩ := h.of_nil
    have hne : ¬u.kind = k := by
      rw [hu]
      exact hkind.symm
    simp only [expect, if_neg hne]
    exact .error
  | cons t ts =>
    obtain ⟨u, us, rfl, hu, hsame⟩ := h.of_cons
    simp only [expect, hu]
    split
    · next ht =>
      obtain ⟨hword, htail⟩ := hsame (by rw [ht]; exact hkind)
      exact hfg t u ts us (congrArg Word.text hword) htail
    · exact .error

/-- A list is read alike in both runs if each has a bound above the number of its lexemes. -/
theorem listUpTo_trailed {item : Reader α} (hitem : item.Steady) (hbound : item.Bounded)
    {close : Kind} (hclose : close ≠ .other) {n n' : Nat} (hn : ts.length < n) (hn' : us.length < n')
    (h : Trailed (words ts) (words us)) :
    Tracks (listUpTo item close n ts) (listUpTo item close n' us) := by
  -- induction on the bound of the first run; that of the second goes down with it
  induction n generalizing n' ts us with
  | zero => omega
  | succ n ih =>
    obtain ⟨n', rfl⟩ : ∃ m, n' = m + 1 := ⟨n' - 1, by omega⟩
    unfold listUpTo
    refine (hitem h).bind ?_
    intro first rest rest' hrest hrest' htrail
    -- the item has taken lexemes, so the numbers still suffice
    have hlen := hbound hrest
    have hlen' := hbound hrest'
    obtain ⟨b, xs, ys, hxs, hys, hxy⟩ := skip_trailed (k := .comma) (by decide) htrail
    have hcount := skip_length hxs
    have hcount' := skip_length hys
    simp only [hxs, hys]
    cases b with
    | true =>
      simp only [at?_trailed hclose hxy]
      split
      · next hat => exact .ok (tail_trailed hclose hat hxy)
      · -- one item and one comma less on both sides
        simp only [Bool.toNat_true] at hcount hcount'
        refine (ih (by omega) (by omega) hxy).bind ?_
        intro others rest rest' _ _ hrest
        exact .ok hrest
    | false =>
      -- no comma: the closing word must follow on both sides
      apply expect_trailed hclose hxy
      intro _ _ rest rest' _ hrest
      exact .ok hrest

theorem Steady.list {item : Reader α} (hitem : item.Steady) (hbound : item.Bounded) {close : Kind}
    (hclose : close ≠ .other) : (list item close).Steady := by
  intro ts us h
  exact listUpTo_trailed hitem hbound hclose (Nat.lt_succ_self _) (Nat.lt_succ_self _) h

end Reader

/-! ## Section 3: The readers of types -/

namespace TypeExpr

open Reader

/-- The parts of a name are read alike. -/
theorem steady_nameParts : Steady nameParts := by
  intro ts us h
  fun_induction nameParts ts generalizing us with
  | case1 t ht b rest hb ih =>
    -- the name goes on behind a backslash
    obtain ⟨u, us, rfl, hu, hsame⟩ := h.of_cons
    obtain ⟨hword, hus⟩ := hsame (by rw [ht]; decide)
    obtain ⟨c, vs, rfl, hc, hsame'⟩ := hus.of_cons
    obtain ⟨-, hvs⟩ := hsame' (by rw [hb]; decide)
    have htext : u.text = t.text := congrArg Word.text hword
    simp only [nameParts, hu, ht, hc, hb, htext, if_true]
    refine (ih hvs).bind ?_
    intro parts rest rest' _ _ hrest
    exact .ok hrest
  | case2 t ht b rest hb =>
    -- another lexeme ends the name
    obtain ⟨u, us, rfl, hu, hsame⟩ := h.of_cons
    obtain ⟨hword, hus⟩ := hsame (by rw [ht]; decide)
    obtain ⟨c, vs, rfl, hc, -⟩ := hus.of_cons
    have htext : u.text = t.text := congrArg Word.text hword
    unfold nameParts
    simp only [hu, ht, hc, hb, htext, if_true, if_false]
    exact .ok hus
  | case3 t ht =>
    -- the name ends with the lexemes
    obtain ⟨u, us, rfl, hu, hsame⟩ := h.of_cons
    obtain ⟨hword, hus⟩ := hsame (by rw [ht]; decide)
    obtain ⟨c, rfl, hc⟩ := hus.of_nil
    have htext : u.text = t.text := congrArg Word.text hword
    unfold nameParts
    simp only [hu, ht, hc, htext, if_true]
    exact .ok hus
  | case4 t ts ht =>
    -- there is no name
    obtain ⟨u, us, rfl, hu, -⟩ := h.of_cons
    unfold nameParts
    simp only [hu, ht, if_false]
    exact .error
  | case5 =>
    -- nothing is left
    obtain ⟨u, rfl, hu⟩ := h.of_nil
    simp only [nameParts, hu]
    exact .error

/-- So is a name, absolute or relative. -/
theorem steady_nameReader : Steady nameReader := by
  intro ts us h
  unfold nameReader
  obtain ⟨b, xs, ys, hxs, hys, hxy⟩ := skip_trailed (k := .backslash) (by decide) h
  simp only [hxs, hys]
  refine (steady_nameParts hxy).bind ?_
  intro parts rest rest' _ _ hrest
  exact .ok hrest

/-- The star behind a name has to be glued to it, and the return does not change whether it is. -/
theorem steady_constantName : Steady constantName := by
  intro ts us h
  cases ts with
  | nil =>
    obtain ⟨u, rfl, hu⟩ := h.of_nil
    simp only [constantName, hu]
    exact .error
  | cons t ts =>
    obtain ⟨u, us, rfl, hu, hsame⟩ := h.of_cons
    unfold constantName
    simp only [hu]
    split
    · next ht => exact .ok (hsame (by rw [ht]; decide)).2
    · split
      · next ht =>
        obtain ⟨hword, hus⟩ := hsame (by rw [ht]; decide)
        have htext : u.text = t.text := congrArg Word.text hword
        rw [htext]
        cases ts with
        | nil =>
          -- nothing but the return follows the name
          obtain ⟨v, rfl, hv⟩ := hus.of_nil
          simp only [hv]
          exact .ok hus
        | cons a ts =>
          obtain ⟨b, us, rfl, hb, hsame'⟩ := hus.of_cons
          simp only [hb]
          split
          · next ha =>
            obtain ⟨hword', hrest⟩ := hsame' (by rw [ha]; decide)
            -- the return stands behind the star, and does not touch the gap in front of it
            have hglued : b.isGlued = a.isGlued := by
              unfold Lexeme.isGlued
              rw [show b.gap = a.gap from congrArg Word.gap hword']
            rw [hglued]
            split
            · exact .ok hrest
            · exact .error
          · exact .ok hus
      · exact .error

/-- So is the default value of a parameter. -/
theorem steady_defaultValue : Steady defaultValue := by
  intro ts us h
  cases ts with
  | nil =>
    obtain ⟨u, rfl, hu⟩ := h.of_nil
    simp only [defaultValue, hu]
    exact .error
  | cons t ts =>
    obtain ⟨u, us, rfl, hu, hsame⟩ := h.of_cons
    simp only [defaultValue, hu]
    split
    · next ht =>
      have hne : t.kind ≠ .other := by
        intro hother
        rw [hother] at ht
        cases ht
      obtain ⟨hword, hus⟩ := hsame hne
      rw [show u.text = t.text from congrArg Word.text hword]
      exact .ok hus
    · exact .error

/-- So are the marks and the variable of a parameter. -/
theorem steady_binder (named : Bool) : Steady (binder named) := by
  intro ts us h
  unfold binder
  obtain ⟨byRef, xs, ys, hxs, hys, hxy⟩ := skip_trailed (k := .amp) (by decide) h
  obtain ⟨variadic, xs', ys', hxs', hys', hxy'⟩ := skip_trailed (k := .ellipsis) (by decide) hxy
  simp only [hxs, hys, hxs', hys']
  cases xs' with
  | nil =>
    -- only the return is left, and it is no variable
    obtain ⟨u, rfl, hu⟩ := hxy'.of_nil
    simp only [hu]
    split
    · exact .error
    · exact .ok hxy'
  | cons t ts =>
    obtain ⟨u, us, rfl, hu, hsame⟩ := hxy'.of_cons
    simp only [hu]
    split
    · next ht =>
      obtain ⟨hword, hus⟩ := hsame (by rw [ht]; decide)
      rw [show u.text = t.text from congrArg Word.text hword]
      exact .ok hus
    · split
      · exact .error
      · exact .ok hxy'

/-- So are the brackets behind a type. -/
theorem steady_suffixes (ty : TypeExpr) : Steady (suffixes ty) := by
  intro ts us h
  fun_induction suffixes ty ts generalizing us with
  | case1 ty t ht r rest hr ih =>
    -- a pair of brackets, and perhaps more of them
    obtain ⟨u, us, rfl, hu, hsame⟩ := h.of_cons
    obtain ⟨-, hus⟩ := hsame (by rw [ht]; decide)
    obtain ⟨v, vs, rfl, hv, hsame'⟩ := hus.of_cons
    obtain ⟨-, hvs⟩ := hsame' (by rw [hr]; decide)
    simp only [suffixes, hu, ht, hv, hr, if_true]
    exact ih hvs
  | case2 ty t ht r rest hr =>
    -- a bracket that is not closed
    obtain ⟨u, us, rfl, hu, hsame⟩ := h.of_cons
    obtain ⟨-, hus⟩ := hsame (by rw [ht]; decide)
    obtain ⟨v, vs, rfl, hv, -⟩ := hus.of_cons
    unfold suffixes
    simp only [hu, ht, hv, hr, if_true, if_false]
    exact .error
  | case3 ty t ht =>
    -- nothing follows the opening bracket
    obtain ⟨u, us, rfl, hu, hsame⟩ := h.of_cons
    obtain ⟨-, hus⟩ := hsame (by rw [ht]; decide)
    obtain ⟨v, rfl, hv⟩ := hus.of_nil
    unfold suffixes
    simp only [hu, ht, hv, if_true]
    exact .error
  | case4 ty t ts ht =>
    -- no bracket follows
    obtain ⟨u, us, rfl, hu, -⟩ := h.of_cons
    unfold suffixes
    simp only [hu, ht, if_false]
    exact .ok h
  | case5 =>
    -- nothing is left
    obtain ⟨u, rfl, hu⟩ := h.of_nil
    unfold suffixes
    simp only [hu]
    exact .ok h

/-- So is a constant behind a type. -/
theorem steady_member (base : TypeExpr) (isNullable : Bool) : Steady (member base isNullable) := by
  intro ts us h
  unfold member
  obtain ⟨b, xs, ys, hxs, hys, hxy⟩ := skip_trailed (k := .doubleColon) (by decide) h
  simp only [hxs, hys]
  cases b with
  | false => exact .ok hxy
  | true =>
    simp only
    split
    · split
      · exact .error
      · refine (steady_constantName hxy).bind ?_
        intro name rest rest' _ _ hrest
        exact .ok hrest
    · exact .error

section Inner

variable {inner : Reader TypeExpr} {Inner : Grammar TypeExpr} (hinner : inner.Steady)

include hinner

/-- So is an entry of a shape. -/
theorem steady_entry : Steady (entry inner) := by
  intro ts us h
  cases ts with
  | nil =>
    obtain ⟨u, rfl, hu⟩ := h.of_nil
    simp only [entry, hu]
    exact .error
  | cons t ts =>
    obtain ⟨u, us, rfl, hu, hsame⟩ := h.of_cons
    unfold entry
    simp only [hu]
    split
    · next ht =>
      have hne : t.kind ≠ .other := by
        intro hother
        rw [hother] at ht
        cases ht
      obtain ⟨hword, hus⟩ := hsame hne
      rw [show u.text = t.text from congrArg Word.text hword]
      obtain ⟨b, xs, ys, hxs, hys, hxy⟩ := skip_trailed (k := .question) (by decide) hus
      simp only [hxs, hys]
      apply expect_trailed (by decide) hxy
      intro _ _ rest rest' _ hrest
      refine (hinner hrest).bind ?_
      intro ty rest rest' _ _ hrest
      exact .ok hrest
    · exact .error

/-- So is the parameter of a tag. -/
theorem steady_tagParam : Steady (tagParam inner) := by
  intro ts us h
  unfold tagParam
  refine (hinner h).bind ?_
  intro ty rest rest' _ _ hrest
  refine (steady_binder true hrest).bind ?_
  rintro ⟨byRef, variadic, name⟩ xs ys _ _ hxy
  exact .ok hxy

/-- So is the parameter of a callable. -/
theorem steady_signatureParam : Steady (signatureParam inner) := by
  intro ts us h
  unfold signatureParam
  refine (hinner h).bind ?_
  intro ty rest rest' _ _ hrest
  refine (steady_binder false hrest).bind ?_
  rintro ⟨byRef, variadic, name⟩ xs ys _ _ hxy
  simp only [at?_trailed (k := .equals) (by decide) hxy]
  split
  · next hdefault =>
    have hat : at? .equals xs = true := (Bool.and_eq_true_iff.mp hdefault).2
    refine (steady_defaultValue (tail_trailed (by decide) hat hxy)).bind ?_
    intro value rest rest' _ _ hrest
    exact .ok hrest
  · exact .ok hxy

variable (hsound : inner.Sound Inner)

include hsound

/-- So are the braces of a shape. -/
theorem steady_entries : Steady (entries inner) := by
  intro ts us h
  unfold entries
  obtain ⟨b, xs, ys, hxs, hys, hxy⟩ := skip_trailed (k := .lbrace) (by decide) h
  simp only [hxs, hys]
  cases b with
  | true => exact (steady_entry hinner).list (sound_entry hsound).bounded (by decide) hxy
  | false => exact .ok hxy

theorem steady_signature : Steady (signature inner) := by
  intro ts us h
  unfold signature
  rw [at?_trailed (by decide) h]
  split
  · next hat => exact .ok (tail_trailed (by decide) hat h)
  · exact (steady_signatureParam hinner).list (sound_signatureParam hsound).bounded (by decide) h

/-- So is what follows the word `callable`. -/
theorem steady_callableTail : Steady (callableTail inner) := by
  intro ts us h
  unfold callableTail
  obtain ⟨b, xs, ys, hxs, hys, hxy⟩ := skip_trailed (k := .lparen) (by decide) h
  simp only [hxs, hys]
  cases b with
  | false => exact .ok hxy
  | true =>
    refine (steady_signature hinner hsound hxy).bind ?_
    intro params rest rest' _ _ hrest
    obtain ⟨b, xs, ys, hxs, hys, hxy⟩ := skip_trailed (k := .colon) (by decide) hrest
    simp only [hxs, hys]
    cases b with
    | false => exact .ok hxy
    | true =>
      refine (hinner hxy).bind ?_
      intro result rest rest' _ _ hrest
      exact .ok hrest

/-- So is the word a type begins with and what belongs to it. -/
theorem steady_head : Steady (head inner) := by
  intro ts us h
  cases ts with
  | nil =>
    obtain ⟨u, rfl, hu⟩ := h.of_nil
    simp only [head, hu]
    exact .error
  | cons t ts =>
    obtain ⟨u, us, rfl, hu, hsame⟩ := h.of_cons
    unfold head
    simp only [hu]
    split
    · -- an array or an object, perhaps with a shape
      next ht =>
      refine (steady_entries hinner hsound (hsame (by rw [ht]; decide)).2).bind ?_
      intro es rest rest' _ _ hrest
      exact .ok hrest
    · next ht =>
      refine (steady_entries hinner hsound (hsame (by rw [ht]; decide)).2).bind ?_
      intro es rest rest' _ _ hrest
      exact .ok hrest
    · next ht =>
      refine (steady_callableTail hinner hsound (hsame (by rw [ht]; decide)).2).bind ?_
      intro ty rest rest' _ _ hrest
      exact .ok hrest
    · next ht => exact .ok (hsame (by rw [ht]; decide)).2
    · -- a name, with a backslash in front or without
      refine (steady_nameReader h).bind ?_
      intro name rest rest' _ _ hrest
      exact .ok hrest
    · refine (steady_nameReader h).bind ?_
      intro name rest rest' _ _ hrest
      exact .ok hrest
    · exact .error

/-- So is a type up to its arguments and its constant. -/
theorem steady_basic (isNullable : Bool) : Steady (basic inner isNullable) := by
  intro ts us h
  unfold basic
  refine (steady_head hinner hsound h).bind ?_
  rintro ⟨base, allowed⟩ xs ys _ _ hxy
  have harguments : Tracks (arguments inner base allowed xs) (arguments inner base allowed ys) := by
    unfold arguments
    rw [at?_trailed (by decide) hxy]
    split
    · next hargs =>
      have hat : at? .lt xs = true := (Bool.and_eq_true_iff.mp hargs).2
      have htail := tail_trailed (by decide) hat hxy
      refine (hinner.list hsound.bounded (by decide) htail).bind ?_
      intro args rest rest' _ _ hrest
      exact .ok hrest
    · exact .ok hxy
  refine harguments.bind ?_
  intro base rest rest' _ _ hrest
  exact steady_member base isNullable hrest

/-- So is a type without the brackets behind it. -/
theorem steady_primary : Steady (primary inner) := by
  intro ts us h
  cases ts with
  | nil =>
    obtain ⟨u, rfl, hu⟩ := h.of_nil
    simp only [primary, hu]
    exact .error
  | cons t ts =>
    obtain ⟨u, us, rfl, hu, hsame⟩ := h.of_cons
    have hliteral (hne : t.kind ≠ .other) :
        Tracks (.ok (TypeExpr.literal t.text, ts)) (.ok (TypeExpr.literal u.text, us)) := by
      obtain ⟨hword, hus⟩ := hsame hne
      rw [show u.text = t.text from congrArg Word.text hword]
      exact .ok hus
    unfold primary
    simp only [hu]
    split
    · -- parentheses, of which the closing one is still to come
      next ht =>
      refine (hinner (hsame (by rw [ht]; decide)).2).bind ?_
      intro ty xs ys _ _ hxy
      apply expect_trailed (by decide) hxy
      intro _ _ rest rest' _ hrest
      exact .ok hrest
    · next ht => exact .ok (hsame (by rw [ht]; decide)).2
    · next ht => exact hliteral (by rw [ht]; decide)
    · next ht => exact hliteral (by rw [ht]; decide)
    · next ht =>
      refine (steady_basic hinner hsound true (hsame (by rw [ht]; decide)).2).bind ?_
      intro ty rest rest' _ _ hrest
      exact .ok hrest
    -- a basic type, or a lexeme that begins no type in either run
    all_goals first
      | exact steady_basic hinner hsound false h
      | exact .error

theorem steady_atomic : Steady (atomic inner) := by
  intro ts us h
  unfold atomic
  refine (steady_primary hinner hsound h).bind ?_
  intro ty rest rest' _ _ hrest
  exact steady_suffixes ty hrest

/-- The other members of a union are read alike if each run has a bound that suffices. -/
theorem unionTail_trailed {ts us : List Lexeme} {n n' : Nat} (hn : ts.length ≤ n)
    (hn' : us.length ≤ n') (h : Trailed (words ts) (words us)) :
    Tracks (unionTail (atomic inner) n ts) (unionTail (atomic inner) n' us) := by
  induction n generalizing n' ts us with
  | zero =>
    -- no lexeme is left, and in the second run only the return
    obtain rfl : ts = [] := List.eq_nil_of_length_eq_zero (by omega)
    obtain ⟨u, rfl, hu⟩ := h.of_nil
    obtain ⟨n', rfl⟩ : ∃ m, n' = m + 1 := ⟨n' - 1, by simp only [List.length_singleton] at hn'; omega⟩
    simp only [unionTail, skip, hu]
    exact .ok h
  | succ n ih =>
    cases n' with
    | zero =>
      -- the second run has a lexeme more, so it is not out of lexemes before the first
      obtain rfl : us = [] := List.eq_nil_of_length_eq_zero (by omega)
      cases ts with
      | nil => exact absurd h.of_nil (by simp)
      | cons t ts => exact absurd h.of_cons (by simp)
    | succ n' =>
      unfold unionTail
      obtain ⟨b, xs, ys, hxs, hys, hxy⟩ := skip_trailed (k := .bar) (by decide) h
      have hcount := skip_length hxs
      have hcount' := skip_length hys
      simp only [hxs, hys]
      cases b with
      | false => exact .ok hxy
      | true =>
        simp only [Bool.toNat_true] at hcount hcount'
        refine (steady_atomic hinner hsound hxy).bind ?_
        intro ty rest rest' hrest hrest' htrail
        -- the bounds go down by one and the lexemes by at least two
        have hlen := (sound_atomic hsound).bounded hrest
        have hlen' := (sound_atomic hsound).bounded hrest'
        refine (ih (by omega) (by omega) htrail).bind ?_
        intro others rest rest' _ _ hrest
        exact .ok hrest

/-- So are those of an intersection. -/
theorem intersectionTail_trailed {ts us : List Lexeme} {n n' : Nat} (hn : ts.length ≤ n)
    (hn' : us.length ≤ n') (h : Trailed (words ts) (words us)) :
    Tracks (intersectionTail (atomic inner) n ts) (intersectionTail (atomic inner) n' us) := by
  -- a lexeme by itself, and one that is no `&`, end the intersection
  have hsingle (u : Lexeme) (n : Nat) : intersectionTail (atomic inner) n [u] = .ok ([], [u]) := by
    cases n <;> rfl
  have hother (u : Lexeme) (us : List Lexeme) (n : Nat) (hu : u.kind ≠ .amp) :
      intersectionTail (atomic inner) n (u :: us) = .ok ([], u :: us) := by
    cases us with
    | nil => exact hsingle u n
    | cons v us =>
      cases n with
      | zero => rfl
      | succ n => simp only [intersectionTail, if_neg hu]
  induction n generalizing n' ts us with
  | zero =>
    -- no lexeme is left, and in the second run only the return
    obtain rfl : ts = [] := List.eq_nil_of_length_eq_zero (by omega)
    obtain ⟨u, rfl, -⟩ := h.of_nil
    rw [hsingle]
    exact .ok h
  | succ n ih =>
    cases ts with
    | nil =>
      obtain ⟨u, rfl, -⟩ := h.of_nil
      rw [hsingle]
      exact .ok h
    | cons t ts =>
      obtain ⟨u, us, rfl, hu, hsame⟩ := h.of_cons
      obtain ⟨n', rfl⟩ : ∃ m, n' = m + 1 := ⟨n' - 1, by simp only [List.length_cons] at hn'; omega⟩
      by_cases hamp : t.kind = .amp
      · obtain ⟨hword, htail⟩ := hsame (by rw [hamp]; decide)
        cases ts with
        | nil =>
          -- the `&` is the last word of the first run, and the return is drawn up to it in the other
          obtain ⟨v, rfl, hv⟩ := htail.of_nil
          have hstart : v.kind.startsType = false := by
            rw [hv]
            rfl
          have hback : intersectionTail (atomic inner) (n' + 1) [u, v] = .ok ([], [u, v.closeUp]) := by
            simp only [intersectionTail, hu, hamp, if_true, hstart, Bool.false_eq_true, if_false]
          rw [hsingle, hback]
          refine .ok ?_
          rw [Lexeme.words_cons, Lexeme.words_cons, hword]
          exact .cons _ (htail.closeUp_of_nil)
        | cons t' ts =>
          obtain ⟨u', us, rfl, hu', -⟩ := htail.of_cons
          unfold intersectionTail
          simp only [hu, hamp, hu', if_true]
          split
          · refine (steady_atomic hinner hsound htail).bind ?_
            intro ty rest rest' hrest hrest' htrail
            have hlen := (sound_atomic hsound).bounded hrest
            have hlen' := (sound_atomic hsound).bounded hrest'
            simp only [List.length_cons] at hn hn' hlen hlen'
            refine (ih (by omega) (by omega) htrail).bind ?_
            intro others rest rest' _ _ hrest
            exact .ok hrest
          · -- the `&` is handed back in both runs
            refine .ok ?_
            rw [Lexeme.words_cons, Lexeme.words_cons u, hword]
            exact .cons t.word htail.closeUp
      · rw [hother t ts _ hamp, hother u us _ (by rwa [hu])]
        exact .ok h

/-- So is a whole type, each run counting its own lexemes. -/
theorem steady_compound : Steady (compound inner) := by
  intro ts us h
  unfold compound
  refine (steady_atomic hinner hsound h).bind ?_
  intro first xs ys _ _ hxy
  simp only [at?_trailed (k := .bar) (by decide) hxy]
  split
  · refine (unionTail_trailed hinner hsound (Nat.le_refl _) (Nat.le_refl _) hxy).bind ?_
    intro others rest rest' _ _ hrest
    exact .ok hrest
  · refine (intersectionTail_trailed hinner hsound (Nat.le_refl _) (Nat.le_refl _) hxy).bind ?_
    intro others rest rest' _ _ hrest
    exact .ok hrest

end Inner

theorem steady_readerTo (depth : Nat) : Steady (readerTo depth) := by
  induction depth with
  | zero =>
    intro ts us _
    exact .error
  | succ depth ih => exact steady_compound ih (sound_readerTo depth)

end TypeExpr

end Docblock
