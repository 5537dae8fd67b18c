import Docblock.Token.Scanner
import Mathlib.Data.List.Basic
import Mathlib.Data.List.TakeWhile
import Mathlib.Tactic.Common

/-!
# Where tokens end

`munch` looks ahead when it decides how far a token reaches.  This module says how much of what
follows a token it depends on: a text that makes up one token by itself is still that token in
front of any other text, unless the very next character goes on with it.

- `goesOn kind text next` is the list of all the characters that go on with a token.
- `munch_append_iff` is the main statement.  It is an equivalence, so a token can be cut out of one
  context and set into another.

The proof follows the cases of `munch`.  Each of them has one of four shapes, which are treated
first: a fixed symbol, a run of a character class, other text, and a token that turns into a longer
one.
-/

namespace Docblock.Token

/-! ## Section 1: Runs of characters -/

theorem takeWhile_eq_nil_iff_head? {p : Char → Bool} {s : Text} :
    s.takeWhile p = [] ↔ ∀ d ∈ s.head?, p d = false := by
  cases s with
  | nil => simp
  | cons d s => cases hd : p d <;> simp [hd]

/-- A run over `r ++ s` ends with `r` exactly when `r` is such a run by itself and `s` does not go
on with it. -/
theorem runLength_append_eq_length_iff (p : Char → Bool) (r s : Text) :
    runLength p (r ++ s) = r.length ↔
      runLength p r = r.length ∧ ∀ d ∈ s.head?, p d = false := by
  unfold runLength
  induction r with
  | nil =>
    cases s with
    | nil => simp
    | cons d s => cases hd : p d <;> simp [hd]
  | cons c r ih =>
    cases hc : p c with
    | false => simp [hc]
    | true => simpa [hc] using ih

/-- The same for a run of other text, the first `n` characters of which are taken without a look. -/
theorem otherRun_append_eq_length_iff {n : Nat} {r : Text} (hn : n ≤ r.length) (s : Text) :
    otherRun n (r ++ s) = r.length ↔
      otherRun n r = r.length ∧ ∀ d ∈ s.head?, endsOther d = true := by
  have hlen : (r.drop n).length = r.length - n := List.length_drop
  have h := runLength_append_eq_length_iff (fun c => !endsOther c) (r.drop n) s
  rw [hlen] at h
  unfold otherRun
  rw [List.drop_append_of_le_length hn]
  simp only [Bool.not_eq_eq_eq_not, Bool.not_false] at h
  constructor
  · intro hrun
    obtain ⟨h₁, h₂⟩ := h.mp (by omega)
    exact ⟨by omega, h₂⟩
  · rintro ⟨hrun, hs⟩
    have := h.mpr ⟨by omega, hs⟩
    omega

theorem endsOther_eq_false_of_isIdentPart {c : Char} (h : isIdentPart c = true) :
    endsOther c = false := by
  cases hc : endsOther c with
  | false => rfl
  | true =>
    simp only [endsOther, Bool.or_eq_true, beq_iff_eq] at hc
    rcases hc with ((rfl | rfl) | rfl) | rfl <;> exact absurd h (by decide)

theorem endsOther_eq_false_of_isTagPart {c : Char} (h : isTagPart c = true) :
    endsOther c = false := by
  cases hc : endsOther c with
  | false => rfl
  | true =>
    simp only [endsOther, Bool.or_eq_true, beq_iff_eq] at hc
    rcases hc with ((rfl | rfl) | rfl) | rfl <;> exact absurd h (by decide)

/-- Reading on over characters that do not end other text does not change where it ends. -/
theorem otherRun_add {m : Nat} {x : Text} {p : Char → Bool} (hp : ∀ c, p c → endsOther c = false) :
    otherRun (m + runLength p (x.drop m)) x = otherRun m x := by
  -- two runs one after the other are one, when the first is of characters of the second
  have key (y : Text) : runLength p y + runLength (fun c => !endsOther c) (y.drop (runLength p y)) =
      runLength (fun c => !endsOther c) y := by
    unfold runLength
    induction y with
    | nil => rfl
    | cons c y ih =>
      cases hc : p c with
      | false => simp [hc]
      | true => simp [hc, hp c hc, ← ih]; omega
  unfold otherRun
  rw [← List.drop_drop, Nat.add_assoc, key]

/-! ## Section 2: What goes on with a token -/

/-- Is a text an opening quote followed by the inside of a string that nothing ends? -/
def leavesOpen : Text → Bool
  | '\'' :: rest => stringBody rest == rest.length
  | _ => false

/-- Would a character that follows a token have been read as a part of it? -/
def goesOn (kind : Kind) (text : Text) (next : Char) : Bool :=
  match kind with
  | .blank => Text.isBlank next
  | .asterisk => next == '/'
  | .colon => next == ':'
  | .array | .object | .callable | .static | .ident => isIdentPart next
  | .tag => isTagPart next
  | .var | .this => isVarPart next || next == '-'
  | .int => next.isDigit
  | .other =>
    !endsOther next || (next == '*' && (text == "/".toList || text == "/*".toList)) ||
      (next != '\n' && leavesOpen text)
  | _ => false

theorem goesOn_other_of_not_endsOther {t : Text} {d : Char} (h : endsOther d = false) :
    goesOn .other t d = true := by
  simp [goesOn, h]

/-- In a text that is no lone slash and no open string, only the class of a character counts. -/
theorem goesOn_other_eq {t : Text} (h₁ : t.head? ≠ some '/') (h₂ : leavesOpen t = false) (d : Char) :
    goesOn .other t d = !endsOther d := by
  have hslash : ∀ x : Text, t ≠ '/' :: x := by
    rintro x rfl; exact h₁ rfl
  simp [goesOn, h₂, hslash]

/-! ## Section 3: The shapes of a token -/

/-- A token that takes as many characters whatever comes after them: nothing goes on with it, so the
text behind it puts no condition. -/
theorem symbol_append_iff {K : Kind} {n : Nat} {k : Kind} {r s t : Text}
    (hK : ∀ d, goesOn K t d = false) :
    (K, n) = (k, r.length) ↔
      (K, n) = (k, r.length) ∧ ∀ d ∈ s.head?, goesOn k t d = false := by
  constructor
  · intro h
    obtain ⟨rfl, _⟩ := Prod.mk.inj h
    exact ⟨h, fun d _ => hK d⟩
  · exact And.left

/-- A token that is a run of one kind of characters: it goes on with just these. -/
theorem run_append_iff {K : Kind} {p : Char → Bool} {k : Kind} {r s t : Text}
    (hK : ∀ d, goesOn K t d = p d) :
    (K, runLength p (r ++ s)) = (k, r.length) ↔
      (K, runLength p r) = (k, r.length) ∧ ∀ d ∈ s.head?, goesOn k t d = false := by
  simp only [Prod.mk.injEq, runLength_append_eq_length_iff]
  constructor
  · rintro ⟨rfl, h₁, h₂⟩
    exact ⟨⟨rfl, h₁⟩, fun d hd => by rw [hK, h₂ d hd]⟩
  · rintro ⟨⟨rfl, h₁⟩, h₂⟩
    exact ⟨rfl, h₁, fun d hd => by rw [← hK, h₂ d hd]⟩

/-- Other text goes on with every character that does not end it, unless it begins an opening that
what follows would complete. -/
theorem other_append_iff {n : Nat} {k : Kind} {r s t : Text} (hn : n ≤ r.length)
    (hK : ∀ d ∈ s.head?, goesOn .other t d = !endsOther d) :
    (Kind.other, otherRun n (r ++ s)) = (k, r.length) ↔
      (Kind.other, otherRun n r) = (k, r.length) ∧ ∀ d ∈ s.head?, goesOn k t d = false := by
  simp only [Prod.mk.injEq, otherRun_append_eq_length_iff hn]
  constructor
  · rintro ⟨rfl, h₁, h₂⟩
    exact ⟨⟨rfl, h₁⟩, fun d hd => by simp [hK d hd, h₂ d hd]⟩
  · rintro ⟨⟨rfl, h₁⟩, h₂⟩
    exact ⟨rfl, h₁, fun d hd => by simpa [hK d hd] using h₂ d hd⟩

/-- A token that goes on past the end of `r` is longer than the one that `r` alone makes up. -/
theorem longer_append_iff {K k : Kind} {r s t : Text} {short long : Kind × Nat}
    (hshort : short = (K, r.length)) (hlong : r.length < long.2)
    (hgo : ∃ d ∈ s.head?, goesOn K t d = true) :
    long = (k, r.length) ↔ short = (k, r.length) ∧ ∀ d ∈ s.head?, goesOn k t d = false := by
  constructor
  · rintro rfl
    exact absurd hlong (Nat.lt_irrefl _)
  · rintro ⟨h, hno⟩
    obtain ⟨d, hd, hgo⟩ := hgo
    obtain ⟨rfl, _⟩ := Prod.mk.inj (hshort.symm.trans h)
    simp [hno d hd] at hgo

/-- A symbol that is another symbol when one particular character follows it. -/
theorem twin_append_iff {K L : Kind} {x : Char} {k : Kind} {r s t : Text}
    (hK : ∀ d, goesOn K t d = (d == x)) (hL : ∀ d, goesOn L t d = false) :
    (if (r ++ s).head? = some x then (L, 1) else (K, 0)) = (k, r.length) ↔
      (if r.head? = some x then (L, 1) else (K, 0)) = (k, r.length) ∧
        ∀ d ∈ s.head?, goesOn k t d = false := by
  rcases r with _ | ⟨c, r⟩
  · rcases s with _ | ⟨d, s⟩
    · simp
    by_cases hd : d = x
    · subst hd
      exact longer_append_iff (K := K) rfl (by simp) ⟨d, rfl, by simp [hK]⟩
    · simp only [List.nil_append, List.head?_cons, Option.some.injEq, hd, if_false, List.head?_nil,
        reduceCtorEq]
      constructor
      · intro h
        obtain ⟨rfl, _⟩ := Prod.mk.inj h
        exact ⟨h, by simp [hK, hd]⟩
      · exact And.left
  · by_cases hc : c = x
    · subst hc
      simpa using symbol_append_iff (K := L) (n := 1) (k := k) (r := c :: r) (s := s) hL
    · simp [hc]

/-! ## Section 4: Strings -/

theorem stringBody_le_length (r : Text) : stringBody r ≤ r.length := by
  fun_induction stringBody r <;> simp_all

/-- The inside of a string ends at a quote, a backslash, a line break or the end of the text. -/
theorem stringBody_stop (r : Text) :
    ∀ d ∈ (r.drop (stringBody r)).head?, d = '\'' ∨ d = '\\' ∨ d = '\n' := by
  fun_induction stringBody r with
  | case1 rest ih => simpa using ih
  | case2 rest ih => simpa using ih
  | case3 c rest h₁ h₂ h =>
    -- a character that ends the inside
    simpa [or_assoc] using h
  | case4 c rest h₁ h₂ h ih => simpa using ih
  | case5 => simp

/-- One more character that is plain inside a string. -/
theorem stringBody_cons {c : Char} (hq : c ≠ '\'') (hb : c ≠ '\\') (hn : c ≠ '\n') (r : Text) :
    stringBody (c :: r) = stringBody r + 1 := by
  rw [stringBody.eq_3 c r (fun _ h => absurd h hb) (fun _ h => absurd h hb)]
  simp [hq, hb, hn]

/-- When the text ends inside the string, the inside goes on with what follows. -/
theorem stringBody_append_of_open {r : Text} (h : stringBody r = r.length) (s : Text) :
    stringBody (r ++ s) = r.length + stringBody s := by
  fun_induction stringBody r with
  | case1 rest ih =>
    -- an escaped quote
    have := ih (by simpa using h)
    simp [stringBody, this]; omega
  | case2 rest ih =>
    -- an escaped backslash
    have := ih (by simpa using h)
    simp [stringBody, this]; omega
  | case3 c rest h₁ h₂ hc => simp at h
  | case4 c rest h₁ h₂ hc ih =>
    -- a plain character
    simp only [Bool.or_eq_true, beq_iff_eq, not_or] at hc
    have := ih (by simpa using h)
    rw [List.cons_append, stringBody_cons hc.1.1 hc.1.2 hc.2, this]
    simp; omega
  | case5 => simp

/-- A string that has ended stays as it is when more text follows, unless it ended at a backslash
that stands last and what follows makes an escape of it. -/
theorem stringBody_append_of_stop {r : Text} (h : stringBody r < r.length) {s : Text}
    (hs : r.drop (stringBody r) = ['\\'] → ∀ d ∈ s.head?, d ≠ '\'' ∧ d ≠ '\\') :
    stringBody (r ++ s) = stringBody r := by
  fun_induction stringBody r with
  | case1 rest ih =>
    -- an escaped quote
    have := ih (by simpa using h) (by simpa using hs)
    simp [stringBody, this]
  | case2 rest ih =>
    -- an escaped backslash
    have := ih (by simpa using h) (by simpa using hs)
    simp [stringBody, this]
  | case3 c rest h₁ h₂ hc =>
    -- a character that ends the inside
    rw [List.cons_append, stringBody.eq_3]
    · simp [hc]
    · rintro x rfl hx
      cases rest with
      | nil => exact (hs rfl '\'' (by simp_all)).1 rfl
      | cons d rest => simp at hx; exact h₁ rest rfl (by simp [hx.1])
    · rintro x rfl hx
      cases rest with
      | nil => exact (hs rfl '\\' (by simp_all)).2 rfl
      | cons d rest => simp at hx; exact h₂ rest rfl (by simp [hx.1])
  | case4 c rest h₁ h₂ hc ih =>
    -- a plain character
    simp only [Bool.or_eq_true, beq_iff_eq, not_or] at hc
    have := ih (by simpa using h) (by simpa using hs)
    rw [List.cons_append, stringBody_cons hc.1.1 hc.1.2 hc.2, this]
  | case5 => simp at h

/-- That exception: a backslash that stood last becomes an escape, so the inside goes on beyond `r`.
-/
theorem lt_stringBody_append_of_escape {r : Text} (h : r.drop (stringBody r) = ['\\']) {d : Char}
    (hd : d = '\'' ∨ d = '\\') (s : Text) :
    r.length < stringBody (r ++ d :: s) := by
  fun_induction stringBody r with
  | case1 rest ih =>
    -- an escaped quote
    have := ih (by simpa using h)
    simp [stringBody]; omega
  | case2 rest ih =>
    -- an escaped backslash
    have := ih (by simpa using h)
    simp [stringBody]; omega
  | case3 c rest h₁ h₂ hc =>
    -- a character that ends the inside
    obtain ⟨rfl, rfl⟩ : c = '\\' ∧ rest = [] := by simpa using h
    rcases hd with rfl | rfl <;> simp [stringBody]
  | case4 c rest h₁ h₂ hc ih =>
    -- a plain character
    simp only [Bool.or_eq_true, beq_iff_eq, not_or] at hc
    have := ih (by simpa using h)
    rw [List.cons_append, stringBody_cons hc.1.1 hc.1.2 hc.2]
    simp; omega
  | case5 => simp at h

theorem munchString_of_quote {r z : Text} (h : r.drop (stringBody r) = '\'' :: z) :
    munchString r = (.str, stringBody r + 1) := by
  simp [munchString, h]

theorem munchString_of_backslash {r z : Text} (h : r.drop (stringBody r) = '\\' :: z) :
    munchString r = (.other, otherRun (stringBody r + 1) r) := by
  simp [munchString, h]

theorem munchString_of_break {r : Text} (h : ∀ d ∈ (r.drop (stringBody r)).head?, d = '\n') :
    munchString r = (.other, stringBody r) := by
  unfold munchString otherRun runLength
  rcases hz : r.drop (stringBody r) with _ | ⟨d, z⟩
  · simp [hz]
  · obtain rfl : d = '\n' := h d (by simp [hz])
    simp [hz, endsOther]

theorem stringBody_le_munchString (r : Text) : stringBody r ≤ (munchString r).2 := by
  unfold munchString otherRun
  dsimp only
  split <;> simp only <;> omega

/-- A string that a quote or a backslash ends takes that character in. -/
theorem stringBody_lt_munchString {r : Text} {d : Char} {z : Text}
    (h : r.drop (stringBody r) = d :: z) (hd : d = '\'' ∨ d = '\\') :
    stringBody r < (munchString r).2 := by
  rcases hd with rfl | rfl
  · simp [munchString_of_quote h]
  · simp only [munchString_of_backslash h, otherRun]; omega

section MunchString

variable {k : Kind} {r s : Text}

/-- Only a line break leaves an open string as it is. -/
theorem munchString_append_iff_of_open (hopen : stringBody r = r.length) :
    munchString (r ++ s) = (k, r.length) ↔
      munchString r = (k, r.length) ∧ ∀ d ∈ s.head?, goesOn k ('\'' :: r) d = false := by
  have hr : munchString r = (.other, r.length) := by
    rw [munchString_of_break (by simp [hopen]), hopen]
  obtain _ | ⟨e, s⟩ := s
  · simp
  have hbody := stringBody_append_of_open hopen (e :: s)
  have hdrop : (r ++ e :: s).drop (stringBody (r ++ e :: s)) =
      (e :: s).drop (stringBody (e :: s)) := by
    rw [hbody, List.drop_length_add_append]
  -- a line break ends the token where `r` ends; every other character goes on with it
  by_cases he : e = '\n'
  · subst he
    have hzero : stringBody ('\n' :: s) = 0 := by simp [stringBody]
    rw [hr, munchString_of_break (by simp [hdrop, hzero]), hbody, hzero]
    constructor
    · rintro ⟨rfl, _⟩
      simp [goesOn, endsOther]
    · rintro ⟨h, _⟩
      simpa using h
  · refine longer_append_iff hr ?_ ⟨e, rfl, by simp [goesOn, leavesOpen, hopen, he]⟩
    -- the string goes on over `e`, or `e` is a quote or a backslash and ends it
    rcases Nat.eq_zero_or_pos (stringBody (e :: s)) with hzero | hpos
    · have hend := stringBody_stop (e :: s) e (by simp [hzero])
      have := stringBody_lt_munchString (r := r ++ e :: s) (d := e) (z := s)
        (by simp [hdrop, hzero]) (by tauto)
      omega
    · have := stringBody_le_munchString (r ++ e :: s)
      omega

/-- Where the string ends inside `r`, a dangling backslash apart, what follows does not count. -/
theorem stringBody_append {d : Char} {z : Text} (hstop : r.drop (stringBody r) = d :: z)
    (hs : d = '\\' → z = [] → ∀ c ∈ s.head?, c ≠ '\'' ∧ c ≠ '\\') :
    stringBody (r ++ s) = stringBody r ∧
      (r ++ s).drop (stringBody (r ++ s)) = d :: (z ++ s) := by
  have hlt : stringBody r < r.length := by
    have := congrArg List.length hstop
    simp at this
    omega
  have hbody := stringBody_append_of_stop hlt (s := s) fun h => by
    rw [hstop, List.cons.injEq] at h
    exact hs h.1 h.2
  refine ⟨hbody, ?_⟩
  rw [hbody, List.drop_append_of_le_length hlt.le, hstop]
  rfl

/-- A backslash that is no escape breaks the string off, and other text begins behind it. -/
theorem munchString_append_iff_of_backslash {z : Text}
    (hstop : r.drop (stringBody r) = '\\' :: z) :
    munchString (r ++ s) = (k, r.length) ↔
      munchString r = (k, r.length) ∧ ∀ d ∈ s.head?, goesOn k ('\'' :: r) d = false := by
  have hlength : stringBody r + (z.length + 1) = r.length := by
    have := congrArg List.length hstop
    simp at this
    omega
  by_cases hesc : z = [] ∧ ∃ e ∈ s.head?, e = '\'' ∨ e = '\\'
  · obtain ⟨rfl, e, he, hquote⟩ := hesc
    obtain ⟨s, rfl⟩ := List.head?_eq_some_iff.mp he
    -- what follows makes an escape of it
    have hlong := lt_stringBody_append_of_escape hstop hquote s
    refine longer_append_iff (K := .other) ?_ (hlong.trans_le (stringBody_le_munchString _))
      ⟨e, rfl, goesOn_other_of_not_endsOther (by rcases hquote with rfl | rfl <;> rfl)⟩
    have hend : stringBody r + 1 = r.length := hlength
    rw [munchString_of_backslash hstop, hend]
    simp [otherRun, runLength]
  · -- otherwise both stop at the same backslash, and other text goes on behind it
    obtain ⟨hbody, hdrop⟩ := stringBody_append (s := s) hstop fun _ hz c hc => by
      by_contra hquote
      exact hesc ⟨hz, c, hc, by tauto⟩
    rw [munchString_of_backslash hdrop, munchString_of_backslash hstop, hbody]
    exact other_append_iff (by omega) fun d _ =>
      goesOn_other_eq (by simp) (by simp [leavesOpen]; omega) d

end MunchString

/-- What comes of a quote ends with `r` exactly when it does without `s` and `s` does not go on with
it. The inside of the string runs to the end of `r`, or it stops at a quote, a backslash or a line
break. -/
theorem munchString_append_iff (k : Kind) (r s : Text) :
    munchString (r ++ s) = (k, r.length) ↔
      munchString r = (k, r.length) ∧ ∀ d ∈ s.head?, goesOn k ('\'' :: r) d = false := by
  rcases hstop : r.drop (stringBody r) with _ | ⟨d, z⟩
  · exact munchString_append_iff_of_open
      (Nat.le_antisymm (stringBody_le_length r) (List.drop_eq_nil_iff.mp hstop))
  rcases stringBody_stop r d (by simp [hstop]) with rfl | rfl | rfl
  · -- a closing quote: a string, and nothing goes on with it
    obtain ⟨hbody, hdrop⟩ := stringBody_append (s := s) hstop (by simp)
    rw [munchString_of_quote hdrop, munchString_of_quote hstop, hbody]
    exact symbol_append_iff fun _ => rfl
  · exact munchString_append_iff_of_backslash hstop
  · -- a line break inside `r`: the token is shorter than `r` with and without `s`
    obtain ⟨hbody, hdrop⟩ := stringBody_append (s := s) hstop (by simp)
    have hlt : stringBody r ≠ r.length := fun h => by simp [h] at hstop
    rw [munchString_of_break (by simp [hdrop]), munchString_of_break (by simp [hstop]), hbody]
    simp only [Prod.mk.injEq, hlt, and_false, false_and]

/-! ## Section 5: Variables and words -/

/-- The name of a variable at the front of a text; empty if there is none. -/
def varName (s : Text) : Text :=
  match s with
  | c :: _ => if isVarStart c then s.takeWhile isVarPart else []
  | [] => []

theorem runLength_isVarPart_of_varName {s : Text} (h : varName s ≠ []) :
    varName s = s.takeWhile isVarPart := by
  unfold varName at *
  split at h
  · split at h <;> simp_all
  · simp at h

theorem isVarPart_of_varName {s : Text} {c : Char} (h : c ∈ varName s) : isVarPart c = true := by
  have hrun := runLength_isVarPart_of_varName (List.ne_nil_of_mem h)
  rw [hrun] at h
  exact List.mem_takeWhile_imp h

theorem isIdentPart_of_isVarPart {c : Char} (h : isVarPart c = true) : isIdentPart c = true := by
  simp [isIdentPart, h]

/-- A dollar sign opens other text if no name follows it, or if a dash follows the name. -/
theorem munchVar_eq (s : Text) :
    munchVar s =
      if varName s = [] ∨ (s.drop (varName s).length).head? = some '-' then (.other, otherRun 0 s)
      else (if varName s = "this".toList then .this else .var, (varName s).length) := by
  -- the name is part of the other text, wherever the count begins
  have hrun : otherRun (varName s).length s = otherRun 0 s := by
    by_cases h : varName s = []
    · simp [h]
    · have := otherRun_add (m := 0) (x := s) (p := isVarPart) fun c hc =>
        endsOther_eq_false_of_isIdentPart (isIdentPart_of_isVarPart hc)
      simpa [runLength, runLength_isVarPart_of_varName h] using this
  rcases s with _ | ⟨c, s⟩
  · rfl
  have hname : (if isVarStart c = true then (c :: s).takeWhile isVarPart else []) =
      varName (c :: s) := rfl
  simp only [munchVar, hname]
  rw [otherRun_add fun c hc => endsOther_eq_false_of_isIdentPart hc, hrun]
  generalize c :: s = s
  split
  · next h => simp [h]
  · next h =>
    have hdash : (s.drop (varName s).length).head? ≠ some '-' := by
      intro hd
      obtain ⟨z, hz⟩ : ∃ z, s.drop (varName s).length = '-' :: z := by
        cases hx : s.drop (varName s).length with
        | nil => simp [hx] at hd
        | cons c z => exact ⟨z, by simp_all⟩
      exact h z hz
    by_cases hnil : varName s = []
    · simp [hnil]
    · simp only [hnil, hdash, or_self, if_false, List.isEmpty_iff]
      split <;> simp_all

theorem goesOn_other_dollar (r : Text) (d : Char) : goesOn .other ('$' :: r) d = !endsOther d :=
  goesOn_other_eq (by simp) rfl d

theorem munchVar_of_no_name {s : Text}
    (h : varName s = [] ∨ (s.drop (varName s).length).head? = some '-') :
    munchVar s = (.other, otherRun 0 s) := by
  rw [munchVar_eq, if_pos h]

theorem munchVar_of_name {s : Text}
    (h : ¬ (varName s = [] ∨ (s.drop (varName s).length).head? = some '-')) :
    munchVar s = (if varName s = "this".toList then .this else .var, (varName s).length) := by
  rw [munchVar_eq, if_neg h]

/-- Other text that nothing in `r` ends goes on over a character that does not end it either. -/
theorem lt_otherRun {r s : Text} {d : Char} (hr : ∀ c ∈ r, endsOther c = false)
    (hd : endsOther d = false) : r.length < otherRun 0 (r ++ d :: s) := by
  have htake : (r ++ d :: s).takeWhile (fun c => !endsOther c) =
      r ++ d :: s.takeWhile (fun c => !endsOther c) := by
    rw [List.takeWhile_append_of_pos (fun c hc => by simp [hr c hc])]
    simp [hd]
  rw [otherRun, List.drop_zero, runLength, htake, List.length_append, List.length_cons]
  omega

section MunchVar

variable {k : Kind} {r s : Text}

/-- Other text on both sides ends at the same characters. -/
theorem munchVar_append_iff_of_other (h : munchVar (r ++ s) = (.other, otherRun 0 (r ++ s)))
    (h' : munchVar r = (.other, otherRun 0 r)) :
    munchVar (r ++ s) = (k, r.length) ↔
      munchVar r = (k, r.length) ∧ ∀ d ∈ s.head?, goesOn k ('$' :: r) d = false := by
  rw [h, h']
  exact other_append_iff (Nat.zero_le _) fun d _ => goesOn_other_dollar r d

/-- A dollar sign by itself goes on with a name. -/
theorem munchVar_nil_append_iff :
    munchVar ([] ++ s) = (k, 0) ↔ munchVar [] = (k, 0) ∧ ∀ d ∈ s.head?, goesOn k ['$'] d = false := by
  by_cases hs : varName s = [] ∨ (s.drop (varName s).length).head? = some '-'
  · exact munchVar_append_iff_of_other (munchVar_of_no_name hs) (munchVar_of_no_name (.inl rfl))
  · -- a name begins right behind the dollar, so the lone dollar goes on
    obtain ⟨hname, -⟩ := not_or.mp hs
    have hlong : 0 < (munchVar ([] ++ s)).2 := by
      rw [List.nil_append, munchVar_of_name hs]
      exact List.length_pos_iff.mpr hname
    obtain _ | ⟨d, s⟩ := s
    · exact absurd rfl hname
    have hd : isVarStart d = true := by
      by_contra hd
      simp [varName, hd] at hname
    have hend : endsOther d = false :=
      endsOther_eq_false_of_isIdentPart (by simp [isIdentPart, isVarPart, hd])
    exact longer_append_iff (r := []) (munchVar_of_no_name (.inl rfl)) hlong
      ⟨d, rfl, goesOn_other_of_not_endsOther hend⟩

/-- A name that takes all of `r` goes on with the characters of names behind it. -/
theorem varName_append_of_name (hne : r ≠ []) (hname : varName r = r) (s : Text) :
    varName (r ++ s) = r ++ s.takeWhile isVarPart := by
  obtain _ | ⟨c, r⟩ := r
  · exact absurd rfl hne
  have hc : isVarStart c = true := by
    by_contra hc
    simp [varName, hc] at hname
  have hall : (c :: r).takeWhile isVarPart = c :: r := by
    simpa only [varName, hc, if_true] using hname
  rw [List.takeWhile_eq_self_iff] at hall
  rw [List.cons_append, varName, if_pos hc, ← List.cons_append, List.takeWhile_append_of_pos hall]

/-- A variable goes on over another character of its name, and a dash spoils it. -/
theorem munchVar_append_iff_of_name (hne : r ≠ []) (hname : varName r = r) :
    munchVar (r ++ s) = (k, r.length) ↔
      munchVar r = (k, r.length) ∧ ∀ d ∈ s.head?, goesOn k ('$' :: r) d = false := by
  have happend := varName_append_of_name hne hname
  obtain ⟨K, hr, hK⟩ : ∃ K, munchVar r = (K, r.length) ∧
      ∀ d, goesOn K ('$' :: r) d = (isVarPart d || d == '-') := by
    refine ⟨if r = "this".toList then .this else .var, ?_, fun d => by split <;> rfl⟩
    rw [munchVar_of_name (by simp [hname, hne]), hname]
  obtain _ | ⟨d, s⟩ := s
  · simp
  cases hd : isVarPart d || d == '-' with
  -- `d` goes on with the name or turns it into other text, and the token is longer than `r`
  | true =>
    refine longer_append_iff hr ?_ ⟨d, rfl, (hK d).trans hd⟩
    rw [munchVar_eq]
    split
    · refine lt_otherRun (fun c hc => ?_) (endsOther_eq_false_of_isIdentPart hd)
      rw [← hname] at hc
      exact endsOther_eq_false_of_isIdentPart (isIdentPart_of_isVarPart (isVarPart_of_varName hc))
    · next hcond =>
      -- a name that ends before `d` is followed by a dash
      have hpart : isVarPart d = true := by
        by_contra hpart
        simp_all
      rw [happend, List.length_append, List.takeWhile_cons_of_pos hpart]
      simp
  -- the name ends with `r`, and `s` changes nothing
  | false =>
    obtain ⟨hpart, hdash⟩ := Bool.or_eq_false_iff.mp hd
    have hsame : varName (r ++ d :: s) = r := by
      rw [happend, List.takeWhile_cons_of_neg (by simp [hpart]), List.append_nil]
    have hrs : munchVar (r ++ d :: s) = munchVar r := by
      rw [munchVar_eq, munchVar_eq, hsame, hname]
      simp_all
    rw [hrs]
    constructor
    · intro h
      obtain ⟨rfl, -⟩ := Prod.mk.inj (hr.symm.trans h)
      exact ⟨h, by simpa [hK] using hd⟩
    · exact And.left

/-- A name that ends inside a text does so whatever follows the text. -/
theorem varName_append_of_inside (hne : r ≠ []) (hname : varName r ≠ r) (s : Text) :
    varName (r ++ s) = varName r ∧ (varName r).length < r.length := by
  obtain _ | ⟨c, r⟩ := r
  · exact absurd rfl hne
  by_cases hc : isVarStart c = true
  · have hall : (c :: r).takeWhile isVarPart ≠ c :: r := by
      simpa only [varName, hc, if_true] using hname
    have hrun := List.takeWhile_prefix isVarPart (l := c :: r)
    have hlt : ((c :: r).takeWhile isVarPart).length < (c :: r).length :=
      Nat.lt_of_le_of_ne hrun.length_le fun h => hall (hrun.eq_of_length h)
    simp only [varName, List.cons_append, hc, if_true]
    refine ⟨?_, hlt⟩
    rw [← List.cons_append, List.takeWhile_append, if_neg (Nat.ne_of_lt hlt)]
  · simp [varName, hc]

/-- When the name ends inside `r`, what follows `r` is not looked at for it. -/
theorem munchVar_append_iff_of_inside (hne : r ≠ []) (hname : varName r ≠ r) :
    munchVar (r ++ s) = (k, r.length) ↔
      munchVar r = (k, r.length) ∧ ∀ d ∈ s.head?, goesOn k ('$' :: r) d = false := by
  obtain ⟨hsame, hlt⟩ := varName_append_of_inside hne hname s
  have hdrop : ((r ++ s).drop (varName (r ++ s)).length).head? =
      (r.drop (varName r).length).head? := by
    rw [hsame, List.drop_append_of_le_length hlt.le, List.head?_append_of_ne_nil]
    exact List.ne_nil_of_length_pos (by rw [List.length_drop]; omega)
  by_cases hcond : varName r = [] ∨ (r.drop (varName r).length).head? = some '-'
  · exact munchVar_append_iff_of_other (munchVar_of_no_name (by rwa [hdrop, hsame]))
      (munchVar_of_no_name hcond)
  · -- neither of the two is as long as `r`
    rw [munchVar_of_name (by rwa [hdrop, hsame]), munchVar_of_name hcond, hsame]
    simp only [Prod.mk.injEq, Nat.ne_of_lt hlt, and_false, false_and]

end MunchVar

/-- What comes of a dollar ends with `r` exactly when it does without `s` and `s` does not go on
with it. -/
theorem munchVar_append_iff (k : Kind) (r s : Text) :
    munchVar (r ++ s) = (k, r.length) ↔
      munchVar r = (k, r.length) ∧ ∀ d ∈ s.head?, goesOn k ('$' :: r) d = false := by
  by_cases hne : r = []
  · subst hne
    exact munchVar_nil_append_iff
  by_cases hname : varName r = r
  · exact munchVar_append_iff_of_name hne hname
  · exact munchVar_append_iff_of_inside hne hname

/-- A word is one of four keywords or an identifier. -/
theorem munchWord_kind (c : Char) (r : Text) :
    (munchWord c r).1 ∈ [Kind.array, .object, .callable, .static, .ident] := by
  change (([Kind.array, .object, .callable, .static].find?
    (·.symbol? == some (c :: r.takeWhile isIdentPart))).getD .ident) ∈ _
  cases h : [Kind.array, .object, .callable, .static].find?
      (·.symbol? == some (c :: r.takeWhile isIdentPart)) with
  | none => simp
  | some kind =>
    have := List.mem_of_find?_eq_some h
    rw [Option.getD_some]
    simp only [List.mem_cons, List.not_mem_nil, or_false] at this ⊢
    tauto

/-- What goes on with a word does not depend on which word it is. -/
theorem goesOn_of_munchWord {k : Kind} {n : Nat} {c : Char} {r t : Text}
    (h : munchWord c r = (k, n)) (d : Char) : goesOn k t d = isIdentPart d := by
  have := munchWord_kind c r
  rw [h] at this
  simp only [List.mem_cons, List.not_mem_nil, or_false] at this
  rcases this with rfl | rfl | rfl | rfl | rfl <;> rfl

/-- The same for a word. -/
theorem munchWord_append_iff (k : Kind) (c : Char) (r s : Text) :
    munchWord c (r ++ s) = (k, r.length) ↔
      munchWord c r = (k, r.length) ∧ ∀ d ∈ s.head?, goesOn k (c :: r) d = false := by
  -- a word ends where its characters do, unless more of them follow
  by_cases hall : r.takeWhile isIdentPart = r
  · by_cases hs : s.takeWhile isIdentPart = []
    · have hsame : munchWord c (r ++ s) = munchWord c r := by
        simp [munchWord, List.takeWhile_append, hall, hs]
      have hgo : ∀ d ∈ s.head?, isIdentPart d = false := takeWhile_eq_nil_iff_head?.mp hs
      rw [hsame]
      constructor
      · intro h
        refine ⟨h, fun d hd => ?_⟩
        rw [← hgo d hd]
        exact goesOn_of_munchWord h d
      · exact And.left
    · have hlong : (munchWord c (r ++ s)).2 ≠ r.length := by
        simpa [munchWord, List.takeWhile_append, hall] using hs
      constructor
      · intro h
        exact absurd (congrArg Prod.snd h) hlong
      · rintro ⟨h, hgo⟩
        refine absurd (takeWhile_eq_nil_iff_head?.mpr fun d hd => ?_) hs
        rw [← goesOn_of_munchWord h d]
        exact hgo d hd
  · -- the word ends inside `r`, so it is too short with and without `s`
    have hlen : (r.takeWhile isIdentPart).length ≠ r.length := fun h =>
      hall ((List.takeWhile_prefix isIdentPart).eq_of_length h)
    have hsame : munchWord c (r ++ s) = munchWord c r := by
      simp [munchWord, List.takeWhile_append, hlen]
    have hshort : munchWord c r ≠ (k, r.length) := fun h => hlen (congrArg Prod.snd h)
    rw [hsame]
    exact ⟨fun h => absurd h hshort, fun h => absurd h.1 hshort⟩

/-! ## Section 6: All tokens -/

theorem munch_slash {x : Text} (hx : x.head? ≠ some '*') :
    munch '/' x = (.other, otherRun 0 x) := by
  cases x <;> simp_all [munch]

theorem munch_slash_star {x : Text} (hx : x.head? ≠ some '*') :
    munch '/' ('*' :: x) = (.other, otherRun 1 ('*' :: x)) := by
  cases x <;> simp_all [munch]

/-- What comes of a slash ends with `r` exactly when it does without `s` and `s` does not go on with
it. -/
theorem munch_slash_append_iff (k : Kind) (r s : Text) :
    munch '/' (r ++ s) = (k, r.length) ↔
      munch '/' r = (k, r.length) ∧ ∀ d ∈ s.head?, goesOn k ('/' :: r) d = false := by
  -- a slash begins other text, which goes on as such unless it becomes the opening of a comment
  have hother (h₁ : r ≠ [] ∨ s.head? ≠ some '*') (h₂ : r ≠ ['*'] ∨ s.head? ≠ some '*') :
      ∀ d ∈ s.head?, goesOn .other ('/' :: r) d = !endsOther d := by
    intro d hd
    have : d = '*' → r ≠ [] ∧ r ≠ ['*'] := by
      rintro rfl
      exact ⟨h₁.resolve_right (fun h => h hd), h₂.resolve_right (fun h => h hd)⟩
    by_cases hstar : d = '*'
    · simp [goesOn, leavesOpen, this hstar]
    · simp [goesOn, leavesOpen, hstar]
  have hone (x : Text) : 1 ≤ otherRun 1 x := Nat.le_add_right _ _
  -- up to three characters decide: none, a first star, and a second one
  rcases r with _ | ⟨a, r⟩
  · rcases s with _ | ⟨d, s⟩
    · simp
    by_cases hd : d = '*'
    · -- the star goes on with a lone slash
      subst hd
      refine longer_append_iff (K := .other) rfl ?_ ⟨'*', rfl, by simp [goesOn]⟩
      cases s with
      | nil => exact hone _
      | cons e s =>
        by_cases he : e = '*'
        · simp [munch, he]
        · rw [List.nil_append, munch_slash_star (by simpa using he)]
          exact hone _
    · rw [List.nil_append, munch_slash (by simpa using hd), munch_slash (by simp)]
      exact other_append_iff (r := []) (Nat.zero_le _)
        (hother (.inr (by simpa using hd)) (.inl (by simp)))
  by_cases ha : a = '*'
  · subst ha
    rcases r with _ | ⟨b, r⟩
    · rcases s with _ | ⟨d, s⟩
      · simp
      by_cases hd : d = '*'
      · -- the second star completes the opening delimiter
        subst hd
        refine longer_append_iff (K := .other) rfl ?_ ⟨'*', rfl, by simp [goesOn]⟩
        simp [munch]
      · rw [List.cons_append, List.nil_append, munch_slash_star (by simpa using hd),
          munch_slash_star (by simp)]
        exact other_append_iff (r := ['*']) (Nat.le_refl _)
          (hother (.inl (by simp)) (.inr (by simpa using hd)))
    · by_cases hb : b = '*'
      · subst hb
        -- the opening delimiter is complete, and nothing goes on with it
        exact symbol_append_iff fun _ => rfl
      · rw [List.cons_append, munch_slash_star (by simpa using hb),
          munch_slash_star (by simpa using hb)]
        exact other_append_iff (r := '*' :: b :: r) (by simp)
          (hother (.inl (by simp)) (.inl (by simp)))
  · rw [List.cons_append, munch_slash (by simpa using ha), munch_slash (by simpa using ha)]
    exact other_append_iff (r := a :: r) (Nat.zero_le _)
      (hother (.inl (by simp)) (.inl (by simp [ha])))

theorem munch_dot {x : Text} (hx : ¬∃ y, x = '.' :: '.' :: y) :
    munch '.' x = (.other, otherRun 0 x) := by
  unfold munch
  split <;> simp_all

/-- What comes of a dot ends with `r` exactly when it does without `s` and `s` does not go on with
it. -/
theorem munch_dot_append_iff (k : Kind) (r s : Text) :
    munch '.' (r ++ s) = (k, r.length) ↔
      munch '.' r = (k, r.length) ∧ ∀ d ∈ s.head?, goesOn k ('.' :: r) d = false := by
  by_cases hr : ∃ r', r = '.' :: '.' :: r'
  · obtain ⟨r', rfl⟩ := hr
    exact symbol_append_iff fun _ => rfl
  · by_cases hrs : ∃ x, r ++ s = '.' :: '.' :: x
    · obtain ⟨x, hx⟩ := hrs
      -- the dots of an ellipsis are divided between `r` and `s`
      have hlong : munch '.' (r ++ s) = (.ellipsis, 2) := by rw [hx]; rfl
      have hdot : s.head? = some '.' ∧ r.length < 2 ∧ otherRun 0 r = r.length := by
        rcases r with _ | ⟨a, _ | ⟨b, r⟩⟩
        · obtain rfl : s = '.' :: '.' :: x := hx
          exact ⟨rfl, by simp, rfl⟩
        · obtain ⟨rfl, rfl⟩ : a = '.' ∧ s = '.' :: x := by simpa using hx
          exact ⟨rfl, by simp, rfl⟩
        · simp_all
      refine longer_append_iff (K := .other) ?_ ?_ ⟨'.', hdot.1, by simp [goesOn, endsOther]⟩
      · rw [munch_dot hr, hdot.2.2]
      · rw [hlong]; exact hdot.2.1
    · rw [munch_dot hrs, munch_dot hr]
      exact other_append_iff (Nat.zero_le _) fun d _ => goesOn_other_eq (by simp) rfl d

/-- An `@` opens other text if no name follows it. -/
theorem munch_at (x : Text) :
    munch '@' x =
      if x.takeWhile isTagPart = [] then (.other, otherRun 0 x) else (.tag, runLength isTagPart x) := by
  rw [munch]
  split
  · next hx => rw [if_pos (List.eq_nil_of_length_eq_zero hx)]
  · next hx =>
    rw [if_neg]
    intro hnil
    exact hx (by simp [runLength, hnil])

/-- What comes of an `@` ends with `r` exactly when it does without `s` and `s` does not go on with
it. -/
theorem munch_at_append_iff (k : Kind) (r s : Text) :
    munch '@' (r ++ s) = (k, r.length) ↔
      munch '@' r = (k, r.length) ∧ ∀ d ∈ s.head?, goesOn k ('@' :: r) d = false := by
  have hother (d : Char) : goesOn .other ('@' :: r) d = !endsOther d :=
    goesOn_other_eq (by simp) rfl d
  by_cases hr : r.takeWhile isTagPart = []
  · by_cases hrs : (r ++ s).takeWhile isTagPart = []
    · rw [munch_at, munch_at, if_pos hr, if_pos hrs]
      exact other_append_iff (Nat.zero_le _) fun d _ => hother d
    · -- the name of the tag begins right after `r`, so `r` is empty
      obtain rfl : r = [] := by
        rw [List.takeWhile_append, hr] at hrs
        cases r with
        | nil => rfl
        | cons c r => simp at hrs
      obtain ⟨d, hd, hpart⟩ : ∃ d ∈ s.head?, isTagPart d = true := by
        rw [List.nil_append, takeWhile_eq_nil_iff_head?] at hrs
        simpa using hrs
      refine longer_append_iff (K := .other) rfl ?_ ⟨d, hd, ?_⟩
      · rw [munch_at, if_neg hrs]
        exact List.length_pos_of_ne_nil hrs
      · exact goesOn_other_of_not_endsOther (endsOther_eq_false_of_isTagPart hpart)
  · -- a tag has begun in `r`, and it goes on with the characters of tags
    have hrs : (r ++ s).takeWhile isTagPart ≠ [] := by
      rw [List.takeWhile_append]
      split
      · cases r <;> simp_all
      · exact hr
    rw [munch_at, munch_at, if_neg hr, if_neg hrs]
    exact run_append_iff fun _ => rfl

/-- Where a token ends.  A text that makes up one token is a token in front of any other text,
unless the character that follows goes on with it. -/
theorem munch_append_iff (k : Kind) (c : Char) (r s : Text) :
    munch c (r ++ s) = (k, r.length) ↔
      munch c r = (k, r.length) ∧ ∀ d ∈ s.head?, goesOn k (c :: r) d = false := by
  -- the three characters whose token is decided by the ones behind them come first
  by_cases hslash : c = '/'
  · subst hslash
    exact munch_slash_append_iff k r s
  by_cases hdot : c = '.'
  · subst hdot
    exact munch_dot_append_iff k r s
  by_cases hat : c = '@'
  · subst hat
    exact munch_at_append_iff k r s
  unfold munch
  split
  case h_2 => exact run_append_iff fun _ => rfl
  case h_3 => exact run_append_iff fun _ => rfl
  case h_4 => exact absurd rfl hslash
  case h_5 => exact twin_append_iff (fun _ => rfl) (fun _ => rfl)
  case h_17 => exact twin_append_iff (fun _ => rfl) (fun _ => rfl)
  case h_18 => exact absurd rfl hdot
  case h_22 => exact absurd rfl hat
  case h_23 => exact munchVar_append_iff k r s
  case h_24 => exact munchString_append_iff k r s
  case h_25 =>
    -- any other character
    split
    · exact run_append_iff fun _ => rfl
    · split
      · exact munchWord_append_iff k c r s
      · refine other_append_iff (Nat.zero_le _) fun d _ => goesOn_other_eq (by simpa using hslash) ?_ d
        unfold leavesOpen
        split <;> simp_all
  -- the symbols of one character
  all_goals exact symbol_append_iff fun _ => rfl

end Docblock.Token
