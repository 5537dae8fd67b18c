import Docblock.Proofs.TypeExpr.Sound

/-!
# What a type leaves of its line

The reader of a type takes lexemes from the front of a line and leaves the others as they are, but
for one thing.  It looks past an `&` for a further member of an intersection, and where it finds none
it hands the `&` back with what follows drawn up to it.

Which types look past an `&` can be told from their trees.  All do that are not unions, and of the
unions those whose last member ends in the result of a callable that does.

- `LeftOf`: what is left of a line, drawn up or not.
- `leaves_readerTo`: what the reader of a type leaves.
-/

namespace Docblock

/-! ## Section 1: Drawing up -/

/-- Draw what follows an `&` at the front up to it. -/
def Lexeme.drawUp : List Lexeme → List Lexeme
  | t :: u :: rest => if t.kind = .amp then t :: u.closeUp :: rest else t :: u :: rest
  | ts => ts

namespace TypeExpr

mutual

/-- Does the reader of the type look past an `&` behind it? -/
def looksPast : TypeExpr → Bool
  | .union members => lastLooksPast members
  | _ => true

/-- Does a member of a union end in a type whose reader looks past an `&` behind it? -/
def memberLooksPast : TypeExpr → Bool
  | .nullable inner => memberLooksPast inner
  | .callable _ (some result) => looksPast result
  | _ => false

/-- Does the last of some members end in such a type? -/
def lastLooksPast : List TypeExpr → Bool
  | [] => false
  | [member] => memberLooksPast member
  | _ :: member :: members => lastLooksPast (member :: members)

end

end TypeExpr

open Lexeme (drawUp)

/-- The lexemes `rest` are left of `ts`; if they are `drawn`, what follows an `&` at their front was
drawn up to it. -/
def LeftOf (ts rest : List Lexeme) (drawn : Bool) : Prop :=
  ∃ us, us <:+ ts ∧ rest = if drawn then drawUp us else us

/-- What the reader leaves after `x` was drawn up just if `drawn x` says so. -/
def Reader.Leaves {α : Type} (r : Reader α) (drawn : α → Bool) : Prop :=
  ∀ ⦃ts : List Lexeme⦄ ⦃x : α⦄ ⦃rest : List Lexeme⦄, r ts = .ok (x, rest) →
    LeftOf ts rest (drawn x)

variable {ts us rest : List Lexeme} {t : Lexeme}

theorem drawUp_cons (h : t.kind ≠ .amp) : drawUp (t :: ts) = t :: ts := by
  cases ts with
  | nil => rfl
  | cons u ts => rw [drawUp, if_neg h]

/-- Drawing up leaves the first lexeme alone. -/
theorem head?_drawUp (ts : List Lexeme) : (drawUp ts).head? = ts.head? := by
  match ts with
  | [] | [_] => rfl
  | t :: u :: ts =>
    rw [drawUp]
    split
    · rfl
    · rfl

/-- It leaves as many lexemes. -/
theorem length_drawUp (ts : List Lexeme) : (drawUp ts).length = ts.length := by
  match ts with
  | [] | [_] => rfl
  | t :: u :: ts =>
    rw [drawUp]
    split
    · rfl
    · rfl

/-- Drawing up twice is drawing up once. -/
theorem drawUp_drawUp (ts : List Lexeme) : drawUp (drawUp ts) = drawUp ts := by
  match ts with
  | [] | [_] => rfl
  | t :: u :: ts =>
    by_cases ht : t.kind = .amp
    · simp only [drawUp, ht, if_true]
      rfl
    · simp only [drawUp, if_neg ht]

namespace LeftOf

variable {drawn : Bool}

theorem of_suffix (h : rest <:+ ts) : LeftOf ts rest false :=
  ⟨rest, h, rfl⟩

theorem trans (hus : us <:+ ts) (h : LeftOf us rest drawn) : LeftOf ts rest drawn := by
  obtain ⟨vs, hvs, hrest⟩ := h
  exact ⟨vs, hvs.trans hus, hrest⟩

/-- What was drawn up begins with an `&`, so nothing else was. -/
theorem suffix_of_head (h : LeftOf ts rest drawn) (hhead : ∀ t ∈ rest.head?, t.kind ≠ .amp) :
    rest <:+ ts := by
  obtain ⟨us, hus, rfl⟩ := h
  -- drawing up shows only behind an `&` in front
  cases drawn with
  | false => exact hus
  | true =>
    simp only [if_true, head?_drawUp] at hhead ⊢
    cases us with
    | nil => exact hus
    | cons t us => rwa [drawUp_cons (hhead t rfl)]

theorem tail (h : LeftOf ts (t :: rest) drawn) (ht : t.kind ≠ .amp) : rest <:+ ts := by
  refine (List.suffix_cons t rest).trans (h.suffix_of_head ?_)
  simpa using ht

/-- Two lexemes further on nothing is either. -/
theorem tail_tail {u : Lexeme} (h : LeftOf ts (t :: u :: rest) drawn) : rest <:+ ts := by
  obtain ⟨us, hus, hrest⟩ := h
  have hends : rest <:+ us := by
    cases drawn with
    | false =>
      obtain rfl : t :: u :: rest = us := hrest
      exact ⟨[t, u], rfl⟩
    | true =>
      match us with
      | [] | [_] => cases hrest
      | a :: b :: us =>
        simp only [if_true, Lexeme.drawUp] at hrest
        split at hrest
        · cases hrest
          exact ⟨[t, b], rfl⟩
        · cases hrest
          exact ⟨[t, u], rfl⟩
  exact hends.trans hus

/-- If the first lexeme is not left, what is left is left of the others. -/
theorem of_length_le (h : LeftOf (t :: ts) rest drawn) (hlength : rest.length ≤ ts.length) :
    LeftOf ts rest drawn := by
  obtain ⟨us, hus, rfl⟩ := h
  -- the whole list is too long to be what is left
  rcases List.suffix_cons_iff.mp hus with rfl | hus
  · exfalso
    cases drawn with
    | false =>
      simp only [Bool.false_eq_true, if_false, List.length_cons] at hlength
      omega
    | true =>
      simp only [if_true, length_drawUp, List.length_cons] at hlength
      omega
  · exact ⟨us, hus, rfl⟩

/-- What was drawn up once stays as it is when it is drawn up again. -/
theorem drawUp (h : LeftOf ts rest drawn) : LeftOf ts (drawUp rest) true := by
  obtain ⟨us, hus, rfl⟩ := h
  refine ⟨us, hus, ?_⟩
  cases drawn with
  | false => rfl
  | true => simp only [if_true, drawUp_drawUp]

end LeftOf

theorem Passes.head_of_nil {ws : List Word} (h : Passes ts ws rest) (hws : ws = []) :
    rest.head? = ts.head? := by
  induction h with
  | done => rfl
  | step => cases hws
  | drawUp _ _ ih => exact ih hws

/-- Behind a lexeme that was passed and is no `&`, the line is as it was. -/
theorem Passes.suffix_of_cons {ws : List Word} (h : Passes ts ws (t :: rest)) (ht : t.kind ≠ .amp) :
    rest <:+ ts := by
  generalize hus : t :: rest = us at h
  -- induction on the way passed, of which only drawing up changes a lexeme
  induction h with
  | done ts => exact hus ▸ List.suffix_cons t rest
  | step u _ ih => exact (ih hus).trans (List.suffix_cons u _)
  | @drawUp ts us ws a u ha hpass ih =>
    have hlength := hpass.length_eq
    subst hus
    simp only [List.length_cons] at hlength
    -- too little was passed for more than the lexemes behind the `&` and its follower to be left
    rcases List.suffix_cons_iff.mp (ih rfl) with heq | hsuffix
    · have := congrArg List.length heq
      simp only [List.length_cons] at this
      omega
    · rcases List.suffix_cons_iff.mp hsuffix with heq | hsuffix
      · have hshort := congrArg List.length heq
        simp only [List.length_cons] at hshort
        have hnone : ws = [] := List.eq_nil_of_length_eq_zero (by omega)
        have hhead := hpass.head_of_nil hnone
        obtain rfl : t = a := by simpa using hhead
        exact absurd ha ht
      · exact hsuffix.trans ((List.suffix_cons u ts).trans (List.suffix_cons a _))

/-! ## Section 2: Readers that end in a lexeme of their own -/

namespace Reader

/-- Skipping leaves a suffix. -/
theorem suffix_of_skip {k : Kind} {b : Bool} (h : skip k ts = (b, rest)) : rest <:+ ts := by
  cases b with
  | true =>
    obtain ⟨t, rfl, -⟩ := skip_eq_true.mp h
    exact List.suffix_cons t rest
  | false =>
    obtain ⟨rfl, -⟩ := skip_eq_false.mp h
    exact List.suffix_rfl

/-- A list ends in its closing lexeme. -/
theorem suffix_of_list {α : Type} {item : Reader α} {Item : Grammar α} (hitem : item.Sound Item)
    {close : Kind} (hclose : close ≠ .amp) {xs : List α} (h : list item close ts = .ok (xs, rest)) :
    rest <:+ ts := by
  unfold list at h
  generalize ts.length + 1 = n at h
  -- induction on the bound: behind each comma stands a list with one item less
  induction n generalizing ts xs with
  | zero => cases h
  | succ n ih =>
    simp only [listUpTo] at h
    rw [bind_eq_ok] at h
    obtain ⟨⟨x, us⟩, hx, h⟩ := h
    obtain ⟨ws, -, hpass, -, -⟩ := hitem hx
    simp only at h
    split at h
    · -- a comma, with the end or more items behind it
      next vs hskip =>
      obtain ⟨m, rfl, hm⟩ := skip_eq_true.mp hskip
      have hvs : vs <:+ ts := hpass.suffix_of_cons (by simp [hm])
      split at h
      · cases h
        exact (List.tail_suffix vs).trans hvs
      · rw [bind_eq_ok] at h
        obtain ⟨⟨others, rest'⟩, hothers, h⟩ := h
        cases h
        exact (ih hothers).trans hvs
    · -- no comma: what is left begins behind the closing lexeme, which is no `&`
      next vs hskip =>
      obtain ⟨rfl, -⟩ := skip_eq_false.mp hskip
      rw [bind_eq_ok] at h
      obtain ⟨⟨c, rest'⟩, hc, h⟩ := h
      cases h
      rw [expect_eq_ok] at hc
      obtain ⟨rfl, hc⟩ := hc
      have hne : c.kind ≠ .amp := by
        rw [hc]
        exact hclose
      exact hpass.suffix_of_cons hne

end Reader

namespace TypeExpr

open Reader

section Inner

variable {inner : Reader TypeExpr} {Inner : Grammar TypeExpr} (hsound : inner.Sound Inner)

include hsound

/-- The parameter of a tag ends in its variable, so it leaves a suffix. -/
theorem suffix_of_tagParam {p : Param TypeExpr} (h : tagParam inner ts = .ok (p, rest)) :
    rest <:+ ts := by
  unfold tagParam at h
  rw [bind_eq_ok] at h
  obtain ⟨⟨ty, us⟩, hty, h⟩ := h
  rw [bind_eq_ok] at h
  obtain ⟨⟨⟨byRef, variadic, name⟩, rest'⟩, hbinder, h⟩ := h
  cases h
  obtain ⟨ws, -, hpass, -, -⟩ := hsound hty
  rcases exists_spelledBinder hbinder with ⟨hnamed, -⟩ | ⟨x, pre, rfl, rfl, hspelled⟩
  · cases hnamed
  · -- the variable comes last, after the marks
    generalize hvs : Lexeme.words pre = vs at hspelled
    cases hspelled with
    | @mk _ _ as es v ha he hv =>
      obtain ⟨marks, vs, rfl, -, hlast⟩ := Lexeme.words_eq_append.mp hvs
      obtain ⟨v, rfl, rfl⟩ := Lexeme.words_eq_singleton.mp hlast
      rw [List.append_assoc] at hpass
      exact (hpass.trans (Passes.of_append marks _)).suffix_of_cons (by
        rw [show v.kind = .var from hv]
        decide)

theorem suffix_of_signature {ps : List (Param TypeExpr)} (h : signature inner ts = .ok (ps, rest)) :
    rest <:+ ts := by
  unfold signature at h
  split at h
  · cases h
    exact List.tail_suffix ts
  · exact suffix_of_list (sound_signatureParam hsound) (by decide) h

/-- The braces of a shape leave a suffix. -/
theorem suffix_of_entries {es : List (Entry TypeExpr)} (h : entries inner ts = .ok (es, rest)) :
    rest <:+ ts := by
  unfold entries at h
  split at h
  · next us hskip =>
    exact (suffix_of_list (sound_entry hsound) (by decide) h).trans (suffix_of_skip hskip)
  · next us hskip =>
    cases h
    exact suffix_of_skip hskip

end Inner

/-! ## Section 3: The readers of types -/

/-- The brackets of an array leave a suffix; without any, what the type left stays as it is. -/
theorem leftOf_suffixes {ty ty' : TypeExpr} (hty : LeftOf ts us (memberLooksPast ty))
    (h : suffixes ty us = .ok (ty', rest)) : LeftOf ts rest (memberLooksPast ty') := by
  fun_induction suffixes ty us with
  | case1 ty l hl r us hr ih =>
    -- a pair of brackets, and perhaps more of them
    have hbracket := hty.tail (by simp [hl])
    exact ih (.of_suffix ((List.suffix_cons r us).trans hbracket)) h
  | case2 => cases h
  | case3 => cases h
  | case4 =>
    -- no bracket follows
    cases h
    exact hty
  | case5 =>
    -- nothing is left
    cases h
    exact hty

/-- A constant leaves a suffix; without one, what the type left stays as it is. -/
theorem leftOf_member {base ty : TypeExpr} {isNullable : Bool}
    (hbase : LeftOf ts us (memberLooksPast base)) (h : member base isNullable us = .ok (ty, rest)) :
    LeftOf ts rest (memberLooksPast ty) := by
  unfold member at h
  split at h
  · next vs hskip =>
    obtain ⟨rfl, -⟩ := skip_eq_false.mp hskip
    cases h
    exact hbase
  · -- a constant ends in a lexeme of its own, so nothing behind it was looked at
    next vs hskip =>
    obtain ⟨c, rfl, hc⟩ := skip_eq_true.mp hskip
    have hvs := hbase.tail (by simp [hc])
    split at h
    · split at h
      · cases h
      · rw [bind_eq_ok] at h
        obtain ⟨⟨name, rest'⟩, hname, h⟩ := h
        cases h
        obtain ⟨pre, -, rfl, -, -⟩ := exists_spelledConstant hname
        exact .of_suffix ((List.suffix_append pre _).trans hvs)
    · cases h

section Inner

variable {inner : Reader TypeExpr} {Inner : Grammar TypeExpr} (hsound : inner.Sound Inner)
  (hleaves : inner.Leaves looksPast)

include hsound

/-- So do the arguments of a type. -/
theorem leftOf_arguments {base ty : TypeExpr} {allowed : Bool}
    (hbase : LeftOf ts us (memberLooksPast base))
    (h : arguments inner base allowed us = .ok (ty, rest)) :
    LeftOf ts rest (memberLooksPast ty) := by
  unfold arguments at h
  split at h
  · next hargs =>
    obtain ⟨l, us, rfl, hl⟩ := at?_eq_true.mp (Bool.and_eq_true_iff.mp hargs).2
    rw [bind_eq_ok] at h
    obtain ⟨⟨args, rest'⟩, hlist, h⟩ := h
    cases h
    exact .of_suffix ((suffix_of_list hsound (by decide) hlist).trans (hbase.tail (by simp [hl])))
  · cases h
    exact hbase

include hleaves

/-- What follows the word `callable` leaves what its result leaves, or a suffix if it has none. -/
theorem leaves_callableTail : (callableTail inner).Leaves memberLooksPast := by
  intro ts ty rest h
  unfold callableTail at h
  split at h
  · next us hskip =>
    rw [bind_eq_ok] at h
    obtain ⟨⟨ps, vs⟩, hps, h⟩ := h
    have hvs := (suffix_of_signature hsound hps).trans (suffix_of_skip hskip)
    simp only at h
    split at h
    · next xs hcolon =>
      rw [bind_eq_ok] at h
      obtain ⟨⟨result, rest'⟩, hresult, h⟩ := h
      cases h
      exact (hleaves hresult).trans ((suffix_of_skip hcolon).trans hvs)
    · next xs hcolon =>
      cases h
      exact .of_suffix ((suffix_of_skip hcolon).trans hvs)
  · next us hskip =>
    cases h
    exact .of_suffix (suffix_of_skip hskip)

/-- The word a type begins with leaves a suffix unless it is a callable. -/
theorem leaves_head : (head inner).Leaves fun x => memberLooksPast x.1 := by
  intro ts x rest h
  have hshape {us us' : List Lexeme} {es : List (Entry TypeExpr)} (hus : us <:+ ts)
      (hes : entries inner us = .ok (es, us')) : LeftOf ts us' false :=
    .of_suffix ((suffix_of_entries hsound hes).trans hus)
  have hnamed {us : List Lexeme} {name : Name} (hname : nameReader ts = .ok (name, us)) :
      LeftOf ts us false := by
    obtain ⟨pre, rfl, -, -⟩ := exists_spelledName hname
    exact .of_suffix (List.suffix_append pre _)
  cases ts with
  | nil => cases h
  | cons t ts =>
    have htail := List.suffix_cons t ts
    unfold head at h
    simp only at h
    split at h
    · -- an array or an object, perhaps with a shape
      rw [bind_eq_ok] at h
      obtain ⟨_, hes, h⟩ := h
      cases h
      exact hshape htail hes
    · rw [bind_eq_ok] at h
      obtain ⟨_, hes, h⟩ := h
      cases h
      exact hshape htail hes
    · -- only a callable can end in a type
      rw [bind_eq_ok] at h
      obtain ⟨⟨ty, rest'⟩, hty, h⟩ := h
      cases h
      exact (leaves_callableTail hsound hleaves hty).trans htail
    · cases h
      exact .of_suffix htail
    · -- a name, with a backslash in front or without
      rw [bind_eq_ok] at h
      obtain ⟨_, hname, h⟩ := h
      cases h
      exact hnamed hname
    · rw [bind_eq_ok] at h
      obtain ⟨_, hname, h⟩ := h
      cases h
      exact hnamed hname
    · cases h

/-- A type up to its arguments and its constant leaves what its head leaves, unless it goes on. -/
theorem leaves_basic (isNullable : Bool) : (basic inner isNullable).Leaves memberLooksPast := by
  intro ts ty rest h
  unfold basic at h
  rw [bind_eq_ok] at h
  obtain ⟨⟨⟨base, allowed⟩, us⟩, hhead, h⟩ := h
  rw [bind_eq_ok] at h
  obtain ⟨⟨base', vs⟩, hargs, h⟩ := h
  exact leftOf_member (leftOf_arguments hsound (leaves_head hsound hleaves hhead) hargs) h

/-- A type without the brackets behind it leaves a suffix, unless it ends in another type. -/
theorem leaves_primary : (primary inner).Leaves memberLooksPast := by
  intro ts ty rest h
  cases ts with
  | nil => cases h
  | cons t ts =>
    have htail := List.suffix_cons t ts
    unfold primary at h
    simp only at h
    split at h
    · -- whatever the type inside looks past, the parenthesis stands behind it
      rw [bind_eq_ok] at h
      obtain ⟨⟨inside, us⟩, hinside, h⟩ := h
      rw [bind_eq_ok] at h
      obtain ⟨⟨r, rest'⟩, hr, h⟩ := h
      cases h
      rw [expect_eq_ok] at hr
      obtain ⟨rfl, hr⟩ := hr
      exact .of_suffix (((hleaves hinside).tail (by simp [hr])).trans htail)
    · cases h
      exact .of_suffix htail
    · cases h
      exact .of_suffix htail
    · cases h
      exact .of_suffix htail
    · -- a question mark leaves what the type behind it leaves
      rw [bind_eq_ok] at h
      obtain ⟨⟨inside, rest'⟩, hinside, h⟩ := h
      cases h
      have hleft := (leaves_basic hsound hleaves true hinside).trans htail
      rwa [memberLooksPast]
    all_goals first
      | exact leaves_basic hsound hleaves false h
      | cases h

theorem leaves_atomic : (atomic inner).Leaves memberLooksPast := by
  intro ts ty rest h
  unfold atomic at h
  rw [bind_eq_ok] at h
  obtain ⟨⟨ty', us⟩, hty, h⟩ := h
  exact leftOf_suffixes (leaves_primary hsound hleaves hty) h

/-- The members of a union are followed by what its last one leaves. -/
theorem leftOf_unionTail {n : Nat} {first : TypeExpr} {others : List TypeExpr}
    (hfirst : LeftOf ts us (memberLooksPast first))
    (h : unionTail (atomic inner) n us = .ok (others, rest)) :
    LeftOf ts rest (lastLooksPast (first :: others)) := by
  -- induction on the bound; only the last member can have looked past an `&`
  induction n generalizing us first others with
  | zero =>
    cases h
    exact hfirst
  | succ n ih =>
    simp only [unionTail] at h
    split at h
    · next vs hskip =>
      obtain ⟨o, rfl, ho⟩ := skip_eq_true.mp hskip
      rw [bind_eq_ok] at h
      obtain ⟨⟨member, xs⟩, hmember, h⟩ := h
      rw [bind_eq_ok] at h
      obtain ⟨⟨more, rest'⟩, hmore, h⟩ := h
      cases h
      -- the bar is taken, so what the member before it looked past does not matter
      have hvs := hfirst.tail (by simp [ho])
      rw [lastLooksPast]
      exact ih ((leaves_atomic hsound hleaves hmember).trans hvs) hmore
    · next vs hskip =>
      obtain ⟨rfl, -⟩ := skip_eq_false.mp hskip
      cases h
      exact hfirst

/-- An intersection always looks past the last `&`. -/
theorem leftOf_intersectionTail {n : Nat} (hn : us.length ≤ n) {drawn : Bool}
    (hus : LeftOf ts us drawn) {others : List TypeExpr}
    (h : intersectionTail (atomic inner) n us = .ok (others, rest)) : LeftOf ts rest true := by
  induction n generalizing us drawn others with
  | zero =>
    obtain rfl : us = [] := List.eq_nil_of_length_eq_zero (by omega)
    cases h
    exact hus.drawUp
  | succ n ih =>
    match us with
    | [] | [_] =>
      cases h
      exact hus.drawUp
    | t :: u :: us =>
      simp only [intersectionTail] at h
      split at h
      · next ht =>
        split at h
        · rw [bind_eq_ok] at h
          obtain ⟨⟨member, vs⟩, hmember, h⟩ := h
          rw [bind_eq_ok] at h
          obtain ⟨⟨more, rest'⟩, hmore, h⟩ := h
          cases h
          -- the member takes the lexeme behind the `&`, so it does not matter where that stands
          obtain ⟨ws, js, hpass, hws, -⟩ := sound_atomic hsound hmember
          obtain ⟨w, ws, rfl, -⟩ := hws.starts
          have hlength := hpass.length_eq
          simp only [List.length_cons] at hn hlength
          have hvs := (leaves_atomic hsound hleaves hmember).of_length_le (by omega)
          exact ih (by omega) (hvs.trans hus.tail_tail) hmore
        · cases h
          -- no type follows, and the lexeme behind the `&` is drawn up
          have hdrawn := hus.drawUp
          rwa [Lexeme.drawUp, if_pos ht] at hdrawn
      · next ht =>
        cases h
        -- there is no `&`, so nothing is drawn up
        have hdrawn := hus.drawUp
        rwa [drawUp_cons ht] at hdrawn

omit hsound hleaves in
/-- An atomic type is no union. -/
theorem SpelledAtomic.looksPast {ty : TypeExpr} {ws : List Word} {js : List Joint}
    (h : SpelledAtomic Inner ty ws js) : ty.looksPast = true := by
  obtain ⟨hty⟩ := h
  -- a member is no union, whichever rule it comes from
  cases hty with
  | array => rfl
  | plain hty =>
    cases hty with
    | paren | this | literal | nullable => rfl
    | basic hty =>
      cases hty with
      | constant => rfl
      | plain hty =>
        cases hty with
        | generic => rfl
        | closed hty =>
          cases hty with
          | callable _ hty => cases hty <;> rfl
        | plain hty => cases hty <;> rfl

/-- A type looks past an `&` unless it is a union whose last member does not. -/
theorem leaves_compound : (compound inner).Leaves looksPast := by
  intro ts ty rest h
  unfold compound at h
  rw [bind_eq_ok] at h
  obtain ⟨⟨first, us⟩, hfirst, h⟩ := h
  have hus := leaves_atomic hsound hleaves hfirst
  simp only at h
  split at h
  · rw [bind_eq_ok] at h
    obtain ⟨⟨others, rest'⟩, hothers, h⟩ := h
    cases h
    exact leftOf_unionTail hsound hleaves hus hothers
  · rw [bind_eq_ok] at h
    obtain ⟨⟨others, rest'⟩, hothers, h⟩ := h
    cases h
    have hrest := leftOf_intersectionTail hsound hleaves le_rfl hus hothers
    cases others with
    | nil =>
      obtain ⟨ws, js, -, hws, -⟩ := sound_atomic hsound hfirst
      have hlooks : looksPast first = true := hws.looksPast
      simpa [hlooks] using hrest
    | cons => exact hrest

end Inner

theorem leaves_readerTo (depth : Nat) : (readerTo depth).Leaves looksPast := by
  induction depth with
  | zero => intro ts ty rest h; cases h
  | succ depth ih => exact leaves_compound (sound_readerTo depth) ih

end TypeExpr

end Docblock
