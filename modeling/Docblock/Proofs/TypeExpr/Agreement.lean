import Docblock.Proofs.TypeExpr.Derivation

/-!
# Readers agree on similar lexemes, and at every depth that suffices

Two runs of the reader are compared: on lexemes that differ only in gaps that do not count, and
with room for deeper types in the second run.  As long as the first run does not complain about the
depth, both end alike: with the same tree and similar lexemes left, or refused for the same reason at
lexemes of the same kind and text.

Only `readerTo` uses up depth.  All other readers take the reader of the types inside brackets as a
parameter, so for them the comparison is stated for any two readers that agree, and the induction on
the depth is a single step.
-/

namespace Docblock

open Lexeme (words)

/-! ## Section 1: Outcomes -/

/-- The second outcome is the first one, or the first one was refused for its depth. -/
inductive Follows {α : Type} :
    Except Fault (α × List Lexeme) → Except Fault (α × List Lexeme) → Prop where
  | ok {x : α} {rest rest' : List Lexeme} (h : Similar (words rest) (words rest')) :
      Follows (.ok (x, rest)) (.ok (x, rest'))
  | error {f f' : Fault} (h : f'.reason = f.reason)
      (found : f'.found.map (·.word.core) = f.found.map (·.word.core)) :
      Follows (.error f) (.error f')
  | deep {f : Fault} {outcome : Except Fault (α × List Lexeme)} (h : f.reason = .nestingTooDeep) :
      Follows (.error f) outcome

/-- The second reader goes on wherever the first does. -/
def Reader.Agrees {α : Type} (r r' : Reader α) : Prop :=
  ∀ ⦃ts us : List Lexeme⦄, Similar (words ts) (words us) → Follows (r ts) (r' us)

variable {α β : Type}

/-- Runs that follow each other go on doing so when what comes next does. -/
theorem Follows.bind {x y : Except Fault (α × List Lexeme)}
    {f g : α × List Lexeme → Except Fault (β × List Lexeme)} (h : Follows x y)
    (hfg : ∀ a rest rest', Similar (words rest) (words rest') → Follows (f (a, rest)) (g (a, rest'))) :
    Follows (x >>= f) (y >>= g) := by
  cases h with
  | ok h => exact hfg _ _ _ h
  | error h found => exact .error h found
  | deep h => exact .deep h

/-- Similar lexemes begin with the same kind and text. -/
theorem Similar.head_core {ts us : List Lexeme} (h : Similar (words ts) (words us)) :
    us.head?.map (·.word.core) = ts.head?.map (·.word.core) := by
  cases ts with
  | nil => rw [Lexeme.words_eq_nil.mp h.eq_nil]
  | cons t ts =>
    cases us with
    | nil => cases h
    | cons u us =>
      cases h with
      | cons kind text _ _ => exact congrArg some (Prod.ext kind text)

/-- Refusals for one reason in front of similar lexemes. -/
theorem follows_refusal (reason : Reason) {ts us : List Lexeme} (h : Similar (words ts) (words us)) :
    Follows (α := α) (.error ⟨reason, ts.head?⟩) (.error ⟨reason, us.head?⟩) :=
  .error rfl h.head_core

/-! ## Section 2: Single lexemes -/

/-- Behind similar first lexemes stand similar ones. -/
theorem Similar.exists_lexeme {t : Lexeme} {ts us : List Lexeme}
    (h : Similar (words (t :: ts)) (words us)) :
    ∃ u us', us = u :: us' ∧ u.kind = t.kind ∧ u.text = t.text ∧ Similar (words ts) (words us') := by
  cases us with
  | nil => cases h
  | cons u us =>
    cases h with
    | cons kind text _ h => exact ⟨u, us, rfl, kind, text, h⟩

theorem Similar.lexemes_eq_nil {us : List Lexeme} (h : Similar (words []) (words us)) : us = [] :=
  Lexeme.words_eq_nil.mp h.eq_nil

theorem Similar.length_eq {ws vs : List Word} (h : Similar ws vs) : vs.length = ws.length := by
  induction h with
  | nil => rfl
  | cons _ _ _ _ ih => rw [List.length_cons, List.length_cons, ih]

namespace Reader

variable {kind : Kind} {ts us : List Lexeme}

theorem at?_similar (h : Similar (words ts) (words us)) : at? kind us = at? kind ts := by
  cases ts with
  | nil => rw [h.lexemes_eq_nil]
  | cons t ts =>
    obtain ⟨u, us, rfl, hk, -, -⟩ := h.exists_lexeme
    rw [at?_cons, at?_cons, hk]

/-- Without their first lexemes they are similar still. -/
theorem tail_similar (h : Similar (words ts) (words us)) : Similar (words ts.tail) (words us.tail) := by
  cases ts with
  | nil =>
    rw [h.lexemes_eq_nil]
    exact .nil
  | cons t ts =>
    obtain ⟨u, us, rfl, -, -, htail⟩ := h.exists_lexeme
    exact htail

/-- Both runs skip a lexeme or none does. -/
theorem skip_similar (kind : Kind) (h : Similar (words ts) (words us)) :
    ∃ b rest rest', skip kind ts = (b, rest) ∧ skip kind us = (b, rest') ∧
      Similar (words rest) (words rest') := by
  cases hat : at? kind ts with
  | true =>
    obtain ⟨t, ts, rfl, ht⟩ := at?_eq_true.mp hat
    obtain ⟨u, us, rfl, hk, -, htail⟩ := h.exists_lexeme
    exact ⟨true, ts, us, skip_cons ht, skip_cons (hk.trans ht), htail⟩
  | false =>
    have hat' : at? kind us = false := (at?_similar h).trans hat
    exact ⟨false, ts, us, skip_of_at? hat, skip_of_at? hat', h⟩

/-- Readers that agree on items agree on lists of them, with the same bound. -/
theorem listUpTo_agrees {item item' : Reader α} (hitem : item.Agrees item') (close : Kind) (n : Nat) :
    (listUpTo item close n).Agrees (listUpTo item' close n) := by
  -- induction on the bound, which goes down with every item in both runs
  induction n with
  | zero =>
    intro ts us h
    exact follows_refusal _ h
  | succ n ih =>
    intro ts us h
    unfold listUpTo
    refine (hitem h).bind ?_
    intro first rest rest' hrest
    obtain ⟨b, xs, ys, hxs, hys, hxy⟩ := skip_similar .comma hrest
    simp only [hxs, hys]
    cases b with
    | true =>
      -- a comma on both sides, and either the end or more items behind it
      simp only [at?_similar hxy]
      split
      · exact .ok (tail_similar hxy)
      · refine (ih hxy).bind ?_
        intro others rest rest' hrest
        exact .ok hrest
    | false =>
      simp only
      cases xs with
      | nil =>
        rw [hxy.lexemes_eq_nil]
        exact .error rfl rfl
      | cons x xs =>
        obtain ⟨y, ys, rfl, hk, -, htail⟩ := hxy.exists_lexeme
        simp only [expect, hk]
        split
        · exact .ok htail
        · exact follows_refusal _ hxy

/-- With their own bounds too, because similar lexemes are equally many. -/
theorem list_agrees {item item' : Reader α} (hitem : item.Agrees item') (close : Kind) :
    (list item close).Agrees (list item' close) := by
  intro ts us h
  have hlen := h.length_eq
  rw [Lexeme.length_words, Lexeme.length_words] at hlen
  unfold list
  rw [hlen]
  exact listUpTo_agrees hitem close _ h

end Reader

/-! ## Section 3: The readers of types -/

namespace TypeExpr

open Reader

/-- The parts of a name are read by kinds and texts, which the two runs share. -/
theorem nameParts_agrees : Agrees nameParts nameParts := by
  intro ts us h
  fun_induction nameParts ts generalizing us with
  | case1 t ht b rest hb ih =>
    -- the name goes on behind a backslash
    obtain ⟨u, us, rfl, hu, htext, hus⟩ := h.exists_lexeme
    obtain ⟨c, vs, rfl, hc, -, hvs⟩ := hus.exists_lexeme
    simp only [nameParts, hu, ht, hc, hb, htext, if_true]
    refine (ih hvs).bind ?_
    intro parts rest rest' hrest
    exact .ok hrest
  | case2 t ht b rest hb =>
    -- another lexeme ends the name
    obtain ⟨u, us, rfl, hu, htext, hus⟩ := h.exists_lexeme
    obtain ⟨c, vs, rfl, hc, -, -⟩ := hus.exists_lexeme
    unfold nameParts
    simp only [hu, ht, hc, hb, htext, if_true, if_false]
    exact .ok hus
  | case3 t ht =>
    -- the name ends with the lexemes
    obtain ⟨u, us, rfl, hu, htext, hus⟩ := h.exists_lexeme
    obtain rfl := hus.lexemes_eq_nil
    simp only [nameParts, hu, ht, htext, if_true]
    exact .ok .nil
  | case4 t ts ht =>
    -- there is no name
    obtain ⟨u, us, rfl, hu, -, -⟩ := h.exists_lexeme
    unfold nameParts
    simp only [hu, ht, if_false]
    exact follows_refusal _ h
  | case5 =>
    -- nothing is left
    rw [h.lexemes_eq_nil]
    exact .error rfl rfl

/-- So is a name, absolute or relative. -/
theorem nameReader_agrees : Agrees nameReader nameReader := by
  intro ts us h
  unfold nameReader
  obtain ⟨b, xs, ys, hxs, hys, hxy⟩ := skip_similar .backslash h
  simp only [hxs, hys]
  refine (nameParts_agrees hxy).bind ?_
  intro parts rest rest' hrest
  exact .ok hrest

/-- Here alone a gap counts, and it is the one that similar lexemes share. -/
theorem constantName_agrees : Agrees constantName constantName := by
  intro ts us h
  cases ts with
  | nil =>
    rw [h.lexemes_eq_nil]
    exact .error rfl rfl
  | cons t ts =>
    -- the star that may follow is matched against the similar one, gap and all
    have hfront := h
    cases us with
    | nil => cases h
    | cons u us =>
      cases h with
      | cons hu htext hstar h =>
        rw [Lexeme.word_kind, Lexeme.word_kind] at hu
        rw [Lexeme.word_text, Lexeme.word_text] at htext
        unfold constantName
        simp only [hu, htext]
        split
        · exact .ok h
        · split
          · next ht =>
            cases ts with
            | nil =>
              rw [h.lexemes_eq_nil]
              exact .ok .nil
            | cons a ts =>
              obtain ⟨b, us, rfl, hb, -, hus⟩ := h.exists_lexeme
              simp only [hb]
              split
              · next ha =>
                -- the gap in front of the star counts
                have hglued : b.isGlued = a.isGlued := by
                  have := hstar ht a.word rfl ha b.word rfl
                  simp only [Lexeme.word_gap] at this
                  rw [Bool.eq_iff_iff]
                  simp [Lexeme.isGlued, this]
                rw [hglued]
                split
                · exact .ok hus
                · exact follows_refusal _ hus
              · exact .ok h
          · exact follows_refusal _ hfront

/-- So is the default value of a parameter. -/
theorem defaultValue_agrees : Agrees defaultValue defaultValue := by
  intro ts us h
  cases ts with
  | nil =>
    rw [h.lexemes_eq_nil]
    exact .error rfl rfl
  | cons t ts =>
    obtain ⟨u, us, rfl, hu, htext, hus⟩ := h.exists_lexeme
    simp only [defaultValue, hu, htext]
    split
    · exact .ok hus
    · exact follows_refusal _ h

/-- So are the marks and the variable of a parameter. -/
theorem binder_agrees (named : Bool) : Agrees (binder named) (binder named) := by
  intro ts us h
  unfold binder
  obtain ⟨byRef, xs, ys, hxs, hys, hxy⟩ := skip_similar .amp h
  obtain ⟨variadic, xs', ys', hxs', hys', hxy'⟩ := skip_similar .ellipsis hxy
  simp only [hxs, hys, hxs', hys']
  -- behind the marks stands the variable, another lexeme or nothing, in both runs alike
  cases xs' with
  | nil =>
    rw [hxy'.lexemes_eq_nil]
    simp only
    split
    · exact .error rfl rfl
    · exact .ok .nil
  | cons t ts =>
    obtain ⟨u, us, rfl, hu, htext, hus⟩ := hxy'.exists_lexeme
    simp only [hu, htext]
    split
    · exact .ok hus
    · split
      · exact follows_refusal _ hxy'
      · exact .ok hxy'

/-- So are the brackets behind a type. -/
theorem suffixes_agrees (ty : TypeExpr) : Agrees (suffixes ty) (suffixes ty) := by
  intro ts us h
  fun_induction suffixes ty ts generalizing us with
  | case1 ty t ht r rest hr ih =>
    -- a pair of brackets, and perhaps more of them
    obtain ⟨u, us, rfl, hu, -, hus⟩ := h.exists_lexeme
    obtain ⟨v, vs, rfl, hv, -, hvs⟩ := hus.exists_lexeme
    simp only [suffixes, hu, ht, hv, hr, if_true]
    exact ih hvs
  | case2 ty t ht r rest hr =>
    -- a bracket that is not closed
    obtain ⟨u, us, rfl, hu, -, hus⟩ := h.exists_lexeme
    obtain ⟨v, vs, rfl, hv, -, -⟩ := hus.exists_lexeme
    unfold suffixes
    simp only [hu, ht, hv, hr, if_true, if_false]
    exact follows_refusal _ hus
  | case3 ty t ht =>
    -- nothing follows the opening bracket
    obtain ⟨u, us, rfl, hu, -, hus⟩ := h.exists_lexeme
    obtain rfl := hus.lexemes_eq_nil
    simp only [suffixes, hu, ht, if_true]
    exact .error rfl rfl
  | case4 ty t ts ht =>
    -- no bracket follows
    obtain ⟨u, us, rfl, hu, -, -⟩ := h.exists_lexeme
    unfold suffixes
    simp only [hu, ht, if_false]
    exact .ok h
  | case5 =>
    -- nothing is left
    rw [h.lexemes_eq_nil]
    exact .ok .nil

/-- So is a constant behind a type. -/
theorem member_agrees (base : TypeExpr) (isNullable : Bool) :
    Agrees (member base isNullable) (member base isNullable) := by
  intro ts us h
  unfold member
  obtain ⟨b, xs, ys, hxs, hys, hxy⟩ := skip_similar .doubleColon h
  simp only [hxs, hys]
  cases b with
  | false => exact .ok hxy
  | true =>
    simp only
    split
    · split
      · exact follows_refusal _ hxy
      · refine (constantName_agrees hxy).bind ?_
        intro name rest rest' hrest
        exact .ok hrest
    · exact follows_refusal _ hxy

section Inner

variable {inner inner' : Reader TypeExpr} (hinner : inner.Agrees inner')

include hinner

/-- Readers that agree on types agree on the entries of a shape. -/
theorem entry_agrees : Agrees (entry inner) (entry inner') := by
  intro ts us h
  cases ts with
  | nil =>
    rw [h.lexemes_eq_nil]
    exact .error rfl rfl
  | cons t ts =>
    obtain ⟨u, us, rfl, hu, htext, hus⟩ := h.exists_lexeme
    unfold entry
    simp only [hu, htext]
    split
    · obtain ⟨b, xs, ys, hxs, hys, hxy⟩ := skip_similar .question hus
      simp only [hxs, hys]
      -- the colon is there in both runs or in neither
      cases xs with
      | nil =>
        rw [hxy.lexemes_eq_nil]
        exact .error rfl rfl
      | cons x xs =>
        obtain ⟨y, ys, rfl, hy, -, htail⟩ := hxy.exists_lexeme
        simp only [expect, hy]
        split
        · refine (hinner htail).bind ?_
          intro ty rest rest' hrest
          exact .ok hrest
        · exact follows_refusal _ hxy
    · exact follows_refusal _ h

/-- They agree on the braces of a shape. -/
theorem entries_agrees : Agrees (entries inner) (entries inner') := by
  intro ts us h
  unfold entries
  obtain ⟨b, xs, ys, hxs, hys, hxy⟩ := skip_similar .lbrace h
  simp only [hxs, hys]
  cases b with
  | true => exact list_agrees (entry_agrees hinner) _ hxy
  | false => exact .ok hxy

/-- They agree on the parameter of a callable. -/
theorem signatureParam_agrees : Agrees (signatureParam inner) (signatureParam inner') := by
  intro ts us h
  unfold signatureParam
  refine (hinner h).bind ?_
  intro ty rest rest' hrest
  refine (binder_agrees false hrest).bind ?_
  rintro ⟨byRef, variadic, name⟩ xs ys hxy
  simp only [at?_similar hxy]
  split
  · refine (defaultValue_agrees (tail_similar hxy)).bind ?_
    intro value rest rest' hrest
    exact .ok hrest
  · exact .ok hxy

theorem signature_agrees : Agrees (signature inner) (signature inner') := by
  intro ts us h
  unfold signature
  rw [at?_similar h]
  split
  · exact .ok (tail_similar h)
  · exact list_agrees (signatureParam_agrees hinner) _ h

/-- They agree on what follows the word `callable`. -/
theorem callableTail_agrees : Agrees (callableTail inner) (callableTail inner') := by
  intro ts us h
  unfold callableTail
  obtain ⟨b, xs, ys, hxs, hys, hxy⟩ := skip_similar .lparen h
  simp only [hxs, hys]
  cases b with
  | false => exact .ok hxy
  | true =>
    refine (signature_agrees hinner hxy).bind ?_
    intro params rest rest' hrest
    obtain ⟨b, xs, ys, hxs, hys, hxy⟩ := skip_similar .colon hrest
    simp only [hxs, hys]
    cases b with
    | false => exact .ok hxy
    | true =>
      refine (hinner hxy).bind ?_
      intro result rest rest' hrest
      exact .ok hrest

/-- They agree on the word a type begins with and what belongs to it. -/
theorem head_agrees : Agrees (head inner) (head inner') := by
  intro ts us h
  cases ts with
  | nil =>
    rw [h.lexemes_eq_nil]
    exact .error rfl rfl
  | cons t ts =>
    obtain ⟨u, us, rfl, hu, -, hus⟩ := h.exists_lexeme
    unfold head
    simp only [hu]
    split
    · -- an array or an object, perhaps with a shape
      refine (entries_agrees hinner hus).bind ?_
      intro es rest rest' hrest
      exact .ok hrest
    · refine (entries_agrees hinner hus).bind ?_
      intro es rest rest' hrest
      exact .ok hrest
    · -- a callable, and behind it `static`
      refine (callableTail_agrees hinner hus).bind ?_
      intro ty rest rest' hrest
      exact .ok hrest
    · exact .ok hus
    · -- a name, with a backslash in front or without
      refine (nameReader_agrees h).bind ?_
      intro name rest rest' hrest
      exact .ok hrest
    · refine (nameReader_agrees h).bind ?_
      intro name rest rest' hrest
      exact .ok hrest
    · exact follows_refusal _ h

/-- They agree on a type up to its arguments and its constant. -/
theorem basic_agrees (isNullable : Bool) :
    Agrees (basic inner isNullable) (basic inner' isNullable) := by
  intro ts us h
  unfold basic
  refine (head_agrees hinner h).bind ?_
  rintro ⟨base, allowed⟩ xs ys hxy
  have harguments : Follows (arguments inner base allowed xs) (arguments inner' base allowed ys) := by
    unfold arguments
    rw [at?_similar hxy]
    split
    · refine (list_agrees hinner _ (tail_similar hxy)).bind ?_
      intro args rest rest' hrest
      exact .ok hrest
    · exact .ok hxy
  refine harguments.bind ?_
  intro base rest rest' hrest
  exact member_agrees base isNullable hrest

/-- They agree on a type without the brackets behind it. -/
theorem primary_agrees : Agrees (primary inner) (primary inner') := by
  intro ts us h
  cases ts with
  | nil =>
    rw [h.lexemes_eq_nil]
    exact .error rfl rfl
  | cons t ts =>
    obtain ⟨u, us, rfl, hu, htext, hus⟩ := h.exists_lexeme
    unfold primary
    simp only [hu, htext]
    split
    · -- parentheses, of which the closing one is still to come
      refine (hinner hus).bind ?_
      intro ty xs ys hxy
      cases xs with
      | nil =>
        rw [hxy.lexemes_eq_nil]
        exact .error rfl rfl
      | cons x xs =>
        obtain ⟨y, ys, rfl, hy, -, htail⟩ := hxy.exists_lexeme
        simp only [expect, hy]
        split
        · exact .ok htail
        · exact follows_refusal _ hxy
    · exact .ok hus
    · exact .ok hus
    · exact .ok hus
    · refine (basic_agrees hinner true hus).bind ?_
      intro ty rest rest' hrest
      exact .ok hrest
    · -- everything a basic type may begin with
      exact basic_agrees hinner false h
    · exact basic_agrees hinner false h
    · exact basic_agrees hinner false h
    · exact basic_agrees hinner false h
    · exact basic_agrees hinner false h
    · exact basic_agrees hinner false h
    · exact follows_refusal _ h

theorem atomic_agrees : Agrees (atomic inner) (atomic inner') := by
  intro ts us h
  unfold atomic
  refine (primary_agrees hinner h).bind ?_
  intro ty rest rest' hrest
  exact suffixes_agrees ty hrest

/-- They agree on the other members of a union. -/
theorem unionTail_agrees (n : Nat) :
    Agrees (unionTail (atomic inner) n) (unionTail (atomic inner') n) := by
  induction n with
  | zero =>
    intro ts us h
    exact .ok h
  | succ n ih =>
    intro ts us h
    unfold unionTail
    obtain ⟨b, xs, ys, hxs, hys, hxy⟩ := skip_similar .bar h
    simp only [hxs, hys]
    cases b with
    | false => exact .ok hxy
    | true =>
      refine (atomic_agrees hinner hxy).bind ?_
      intro ty rest rest' hrest
      refine (ih hrest).bind ?_
      intro others rest rest' hrest
      exact .ok hrest

/-- They agree on those of an intersection, where two lexemes are looked at. -/
theorem intersectionTail_agrees (n : Nat) :
    Agrees (intersectionTail (atomic inner) n) (intersectionTail (atomic inner') n) := by
  induction n with
  | zero =>
    intro ts us h
    exact .ok h
  | succ n ih =>
    intro ts us h
    cases ts with
    | nil =>
      rw [h.lexemes_eq_nil]
      exact .ok .nil
    | cons t ts =>
      cases ts with
      | nil =>
        -- one lexeme by itself is no `&` and a type
        obtain ⟨u, us, rfl, -, -, hus⟩ := h.exists_lexeme
        obtain rfl := hus.lexemes_eq_nil
        exact .ok h
      | cons t' ts =>
        obtain ⟨u, us, rfl, hu, htext, hus⟩ := h.exists_lexeme
        obtain ⟨u', us', rfl, hu', htext', hus'⟩ := hus.exists_lexeme
        unfold intersectionTail
        simp only [hu, hu']
        split
        · next hamp =>
          split
          · refine (atomic_agrees hinner hus).bind ?_
            intro ty rest rest' hrest
            refine (ih hrest).bind ?_
            intro others rest rest' hrest
            exact .ok hrest
          · -- the `&` is handed back, and what follows it is drawn up in both runs
            refine .ok (.cons hu htext ?_ ?_)
            · intro hident
              rw [Lexeme.word_kind, hamp] at hident
              cases hident
            · cases hus with
              | cons kind text star h => exact .cons kind text star h
        · exact .ok h

/-- So they agree on whole types. -/
theorem compound_agrees : Agrees (compound inner) (compound inner') := by
  intro ts us h
  unfold compound
  refine (atomic_agrees hinner h).bind ?_
  intro first xs ys hxy
  have hlen : ys.length = xs.length := by
    have := hxy.length_eq
    rwa [Lexeme.length_words, Lexeme.length_words] at this
  simp only [at?_similar hxy, hlen]
  split
  · refine (unionTail_agrees hinner _ hxy).bind ?_
    intro others rest rest' hrest
    exact .ok hrest
  · refine (intersectionTail_agrees hinner _ hxy).bind ?_
    intro others rest rest' hrest
    exact .ok hrest

end Inner

/-- A reader that does not complain about the depth agrees with every reader that has more room. -/
theorem readerTo_agrees {depth depth' : Nat} (h : depth ≤ depth') :
    Agrees (readerTo depth) (readerTo depth') := by
  induction depth generalizing depth' with
  | zero =>
    intro ts us _
    exact .deep rfl
  | succ depth ih =>
    obtain ⟨depth', rfl⟩ : ∃ d, depth' = d + 1 := ⟨depth' - 1, by omega⟩
    exact compound_agrees (ih (by omega))

end TypeExpr

end Docblock
