import Docblock.Lexeme
import Docblock.Proofs.Token.Boundary
import Mathlib.Data.List.TakeWhile

/-!
# What tokens look like

A text `Forms` a kind if it is one token of that kind from end to end.  `Shape` says what such a
text looks like, kind by kind; later proofs read off it what they need of a token, and do not look
into `munch` again.

- `exists_forms`: every text begins with a token, and what follows does not go on with it.
- `tokensFrom_append`: cutting a token off the front of a text.
- `shape_of_forms`: the shapes.
-/

namespace Docblock

namespace Token

/-! ## Section 1: Texts that are one token -/

/-- A token does not reach beyond the text. -/
theorem munch_le_length (c : Char) (r : Text) : (munch c r).2 ≤ r.length := by
  have hrun (p : Char → Bool) (x : Text) : runLength p x ≤ x.length :=
    (List.takeWhile_prefix p).length_le
  have hother (n : Nat) (x : Text) (hn : n ≤ x.length) : otherRun n x ≤ x.length := by
    have := hrun (fun c => !endsOther c) (x.drop n)
    rw [List.length_drop] at this
    unfold otherRun
    omega
  have hname (x : Text) : (varName x).length ≤ x.length := by
    unfold varName
    split
    · split
      · exact hrun isVarPart _
      · simp
    · simp
  unfold munch
  split
  case h_4 =>
    -- a slash
    split
    · simp
    · exact hother 1 _ (by simp)
    · exact hother 0 _ (Nat.zero_le _)
  case h_5 => split <;> cases r <;> simp_all
  case h_17 => split <;> cases r <;> simp_all
  case h_18 =>
    -- a dot
    split
    · simp
    · exact hother 0 _ (Nat.zero_le _)
  case h_22 =>
    -- an at sign
    split
    · exact hother 0 _ (Nat.zero_le _)
    · exact hrun isTagPart _
  case h_23 =>
    -- a dollar sign
    rw [munchVar_eq]
    split
    · exact hother 0 _ (Nat.zero_le _)
    · exact hname _
  case h_24 =>
    -- a quote
    have hbody := stringBody_le_length r
    rcases hstop : r.drop (stringBody r) with _ | ⟨d, z⟩
    · rw [munchString_of_break (by simp [hstop])]; exact hbody
    · have hlt : stringBody r < r.length := by
        have := congrArg List.length hstop
        simp at this; omega
      rcases stringBody_stop r d (by simp [hstop]) with rfl | rfl | rfl
      · rw [munchString_of_quote hstop]; exact hlt
      · rw [munchString_of_backslash hstop]; exact hother _ _ hlt
      · rw [munchString_of_break (by simp [hstop])]; exact hbody
  case h_25 =>
    -- any other character
    split
    · exact hrun _ _
    · split
      · exact hrun isIdentPart _
      · exact hother 0 _ (Nat.zero_le _)
  -- the symbols, and the runs of blanks
  all_goals first | exact Nat.zero_le _ | exact hrun _ _

/-- Does a text make up exactly one token of the given kind? -/
def Forms (kind : Kind) : Text → Prop
  | [] => False
  | c :: r => munch c r = (kind, r.length)

instance (kind : Kind) (text : Text) : Decidable (Forms kind text) :=
  match text with
  | [] => .isFalse id
  | c :: r => inferInstanceAs (Decidable (munch c r = (kind, r.length)))

theorem forms_ne_nil {k : Kind} {t : Text} (h : Forms k t) : t ≠ [] := by
  rintro rfl
  exact h

/-- What is cut off a text forms a token by itself, and what is left does not go on with it. -/
theorem forms_cons_of_munch {c : Char} {rest : Text} {k : Kind} {n : Nat} (h : munch c rest = (k, n)) :
    Forms k (c :: rest.take n) ∧
      ∀ d ∈ (rest.drop n).head?, goesOn k (c :: rest.take n) d = false := by
  have hn : (rest.take n).length = n := by
    have := munch_le_length c rest
    rw [h] at this
    exact List.length_take_of_le this
  have h' : munch c (rest.take n ++ rest.drop n) = (k, (rest.take n).length) := by
    rw [List.take_append_drop, hn, h]
  exact (munch_append_iff k c _ _).mp h'

theorem munch_of_forms {k : Kind} {c : Char} {r s : Text} (h : Forms k (c :: r))
    (hgo : ∀ d ∈ s.head?, goesOn k (c :: r) d = false) : munch c (r ++ s) = (k, r.length) :=
  (munch_append_iff k c r s).mpr ⟨h, hgo⟩

theorem tokensFrom_nil (p : Position) : tokensFrom p [] = [] := by
  rw [tokensFrom]

/-- A token in front of what does not go on with it is the first token, and the others start behind
it. -/
theorem tokensFrom_append {k : Kind} {t s : Text} (h : Forms k t)
    (hgo : ∀ d ∈ s.head?, goesOn k t d = false) (p : Position) :
    tokensFrom p (t ++ s) = ⟨k, t, p⟩ :: tokensFrom (p.advance t) s := by
  cases t with
  | nil => exact absurd h id
  | cons c r =>
    rw [List.cons_append, tokensFrom, munch_of_forms h hgo]
    simp

/-- Every text that is not empty begins with a token. -/
theorem exists_forms {s : Text} (hs : s ≠ []) :
    ∃ k t rest, s = t ++ rest ∧ t ≠ [] ∧ Forms k t ∧ ∀ d ∈ rest.head?, goesOn k t d = false := by
  cases s with
  | nil => exact absurd rfl hs
  | cons c rest =>
    obtain ⟨h, hgo⟩ := forms_cons_of_munch (Eq.refl (munch c rest))
    exact ⟨_, _, _, by rw [List.cons_append, List.take_append_drop], by simp, h, hgo⟩

/-! ## Section 2: The shapes of tokens -/

theorem isBlank_iff {c : Char} : Text.isBlank c = true ↔ c = ' ' ∨ c = '\t' := by
  simp [Text.isBlank]

theorem isPrefix_varName (s : Text) : varName s <+: s := by
  unfold varName
  split
  · split
    · exact List.takeWhile_prefix _
    · exact List.nil_prefix
  · exact List.nil_prefix

/-- A keyword is written as it is. -/
theorem eq_of_munchWord_symbol {k : Kind} {c : Char} {r x : Text}
    (h : munchWord c r = (k, r.length)) (hx : k.symbol? = some x) : c :: r = x := by
  have hkind := congrArg Prod.fst h
  have htail : r.takeWhile isIdentPart = r :=
    (List.takeWhile_prefix isIdentPart).eq_of_length (congrArg Prod.snd h)
  change ([Kind.array, .object, .callable, .static].find?
    (·.symbol? == some (c :: r.takeWhile isIdentPart))).getD .ident = k at hkind
  rw [htail] at hkind
  cases hf : [Kind.array, .object, .callable, .static].find? (·.symbol? == some (c :: r)) with
  | none =>
    rw [hf] at hkind
    subst hkind
    simp [Kind.symbol?] at hx
  | some kind =>
    rw [hf, Option.getD_some] at hkind
    subst hkind
    have := List.find?_some hf
    simp_all

/-- What the text of a token of each kind looks like.  For other text this is only what is known
of all of it: it stays on its line and does not begin with a blank. -/
inductive Shape : Kind → Text → Prop where
  | symbol {k : Kind} {t : Text} (h : k.symbol? = some t) : Shape k t
  | newline : Shape .newline ['\n']
  | blank {c : Char} {r : Text} (h : ∀ d ∈ c :: r, Text.isBlank d = true) : Shape .blank (c :: r)
  | ident {c : Char} {r : Text} (h : ∀ d ∈ c :: r, isIdentPart d = true) : Shape .ident (c :: r)
  | tag {c : Char} {r : Text} (h : ∀ d ∈ c :: r, isTagPart d = true) : Shape .tag ('@' :: c :: r)
  | var {c : Char} {r : Text} (h : ∀ d ∈ c :: r, isVarPart d = true) : Shape .var ('$' :: c :: r)
  | int {c : Char} {r : Text} (h : ∀ d ∈ c :: r, d.isDigit = true) : Shape .int (c :: r)
  | str {r : Text} (h : '\n' ∉ r) : Shape .str ('\'' :: r ++ ['\''])
  | other {c : Char} {r : Text} (hc : Text.isBlank c = false) (h : '\n' ∉ c :: r) :
      Shape .other (c :: r)

/-- Other text has no line break behind the characters it takes without a look. -/
theorem not_mem_of_otherRun_eq_length {n : Nat} {r : Text} (hn : '\n' ∉ r.take n)
    (h : otherRun n r = r.length) : '\n' ∉ r := by
  have hrun : (r.drop n).takeWhile (fun c => !endsOther c) = r.drop n := by
    refine (List.takeWhile_prefix _).eq_of_length ?_
    rw [List.length_drop]
    unfold otherRun runLength at h
    omega
  rw [← List.take_append_drop n r, List.mem_append, ← hrun]
  rintro (hmem | hmem)
  · exact hn hmem
  · have := List.mem_takeWhile_imp hmem
    simp [endsOther] at this

/-- The inside of a string has no line break. -/
theorem not_mem_take_stringBody (r : Text) : '\n' ∉ r.take (stringBody r) := by
  fun_induction stringBody r with
  | case1 rest ih => simpa using ih
  | case2 rest ih => simpa using ih
  | case3 c rest h₁ h₂ h => simp
  | case4 c rest h₁ h₂ h ih =>
    -- a plain character
    simp only [Bool.or_eq_true, beq_iff_eq, not_or] at h
    simp only [List.take_succ_cons, List.mem_cons, not_or]
    exact ⟨fun hc => h.2 hc.symm, ih⟩
  | case5 => simp

/-- What begins with a quote is a string, or other text on one line. -/
theorem shape_of_munchString {k : Kind} {r : Text} (h : munchString r = (k, r.length)) :
    Shape k ('\'' :: r) := by
  have hno := not_mem_take_stringBody r
  rcases hstop : r.drop (stringBody r) with _ | ⟨d, z⟩
  · rw [munchString_of_break (by simp [hstop])] at h
    obtain ⟨rfl, hlen⟩ := Prod.mk.inj h
    rw [hlen, List.take_length] at hno
    exact .other rfl (by simpa using hno)
  · have hsplit := List.take_append_drop (stringBody r) r
    have hle := stringBody_le_length r
    have hlt : stringBody r < r.length := by
      have := congrArg List.length hstop
      simp at this; omega
    rcases stringBody_stop r d (by simp [hstop]) with rfl | rfl | rfl
    · -- a closing quote, which ends the text
      rw [munchString_of_quote hstop] at h
      obtain ⟨rfl, hlen⟩ := Prod.mk.inj h
      have hz : z = [] := by
        have := congrArg List.length hstop
        simp at this
        exact List.eq_nil_of_length_eq_zero (by omega)
      rw [hstop, hz] at hsplit
      rw [← hsplit]
      exact .str hno
    · rw [munchString_of_backslash hstop] at h
      obtain ⟨rfl, hlen⟩ := Prod.mk.inj h
      have hno' : '\n' ∉ r.take (stringBody r + 1) := by
        rw [List.take_add_one, List.mem_append, not_or]
        refine ⟨hno, ?_⟩
        have : r[stringBody r]? = some '\\' := by
          rw [← List.head?_drop, hstop]; rfl
        simp [this]
      exact .other rfl (by simpa using not_mem_of_otherRun_eq_length hno' hlen)
    · -- a line break, which is not part of the token
      rw [munchString_of_break (by simp [hstop])] at h
      have := (Prod.mk.inj h).2
      omega

/-- What begins with a dollar is a variable, `$this`, or other text. -/
theorem shape_of_munchVar {k : Kind} {r : Text} (h : munchVar r = (k, r.length)) :
    Shape k ('$' :: r) := by
  rw [munchVar_eq] at h
  split at h
  · obtain ⟨rfl, hlen⟩ := Prod.mk.inj h
    exact .other rfl (by simpa using not_mem_of_otherRun_eq_length (by simp) hlen)
  · next hname =>
    obtain ⟨hk, hlen⟩ := Prod.mk.inj h
    have hr := (isPrefix_varName r).eq_of_length hlen
    split at hk
    · next hthis =>
      subst hk
      rw [← hr, hthis]
      exact .symbol rfl
    · subst hk
      have hne : varName r ≠ [] := fun hnil => hname (.inl hnil)
      have hall : ∀ d ∈ r, isVarPart d = true := by
        intro d hd
        rw [← hr, runLength_isVarPart_of_varName hne] at hd
        exact List.mem_takeWhile_imp hd
      cases r with
      | nil => exact absurd hr hne
      | cons c r => exact .var hall

/-- A word is a keyword or an identifier. -/
theorem shape_of_munchWord {k : Kind} {c : Char} {r : Text} (hc : isIdentStart c = true)
    (h : munchWord c r = (k, r.length)) : Shape k (c :: r) := by
  have htail : r.takeWhile isIdentPart = r :=
    (List.takeWhile_prefix isIdentPart).eq_of_length (congrArg Prod.snd h)
  have hall : ∀ d ∈ c :: r, isIdentPart d = true := by
    intro d hd
    rcases List.mem_cons.mp hd with rfl | hd
    · simp only [isIdentStart, isIdentPart, isVarPart, Bool.or_eq_true] at hc ⊢
      tauto
    · rw [← htail] at hd
      exact List.mem_takeWhile_imp hd
  cases hx : k.symbol? with
  | some x => exact .symbol (by rw [hx, eq_of_munchWord_symbol h hx])
  | none =>
    have := munchWord_kind c r
    rw [h] at this
    simp only [List.mem_cons, List.not_mem_nil, or_false] at this
    rcases this with rfl | rfl | rfl | rfl | rfl
    case inr.inr.inr.inr => exact .ident hall
    all_goals simp [Kind.symbol?] at hx

theorem takeWhile_eq_self_of_runLength {p : Char → Bool} {r : Text} (h : runLength p r = r.length) :
    ∀ d ∈ r, p d = true := by
  rw [← (List.takeWhile_prefix p).eq_of_length h]
  exact fun d hd => List.mem_takeWhile_imp hd

theorem shape_single {K k : Kind} {c : Char} {r : Text} (h : (K, 0) = (k, r.length))
    (hK : K.symbol? = some [c]) : Shape k (c :: r) := by
  obtain ⟨rfl, hr⟩ := Prod.mk.inj h
  rw [List.eq_nil_of_length_eq_zero hr.symm]
  exact .symbol hK

theorem shape_double {K k : Kind} {c d : Char} {r : Text} (h : (K, 1) = (k, r.length))
    (hr : r.head? = some d) (hK : K.symbol? = some [c, d]) : Shape k (c :: r) := by
  obtain ⟨rfl, hlen⟩ := Prod.mk.inj h
  obtain ⟨e, rfl⟩ := List.length_eq_one_iff.mp hlen.symm
  obtain rfl : e = d := by simpa using hr
  exact .symbol hK

theorem shape_triple {K k : Kind} {c d e : Char} {z : Text}
    (h : (K, 2) = (k, (d :: e :: z).length)) (hK : K.symbol? = some [c, d, e]) :
    Shape k (c :: d :: e :: z) := by
  obtain ⟨rfl, hlen⟩ := Prod.mk.inj h
  obtain rfl : z = [] := List.eq_nil_of_length_eq_zero (by simpa using hlen)
  exact .symbol hK

theorem shape_blanks {k : Kind} {c : Char} {r : Text} (hc : Text.isBlank c = true)
    (h : (Kind.blank, runLength Text.isBlank r) = (k, r.length)) : Shape k (c :: r) := by
  obtain ⟨rfl, hlen⟩ := Prod.mk.inj h
  exact .blank (List.forall_mem_cons.mpr ⟨hc, takeWhile_eq_self_of_runLength hlen⟩)

theorem shape_other {k : Kind} {c : Char} {r : Text} {n : Nat} (hc : Text.isBlank c = false)
    (hc' : c ≠ '\n') (hn : '\n' ∉ r.take n)
    (h : (Kind.other, otherRun n r) = (k, r.length)) : Shape k (c :: r) := by
  obtain ⟨rfl, hlen⟩ := Prod.mk.inj h
  have hno := not_mem_of_otherRun_eq_length hn hlen
  exact .other hc (by simp [hno, hc'.symm])

/-- Every token has the shape of its kind. -/
theorem shape_of_forms {k : Kind} {t : Text} (h : Forms k t) : Shape k t := by
  cases t with
  | nil => exact absurd h id
  | cons c r =>
    change munch c r = (k, r.length) at h
    unfold munch at h
    split at h
    case h_1 =>
      -- a line break
      obtain ⟨rfl, hr⟩ := Prod.mk.inj h
      rw [List.eq_nil_of_length_eq_zero hr.symm]
      exact .newline
    case h_2 => exact shape_blanks rfl h
    case h_3 => exact shape_blanks rfl h
    case h_4 =>
      -- a slash
      split at h
      · exact shape_triple h rfl
      · exact shape_other rfl (by decide) (by simp) h
      · exact shape_other rfl (by decide) (by simp) h
    case h_5 =>
      -- an asterisk
      split at h
      · next hr => exact shape_double h hr rfl
      · exact shape_single h rfl
    case h_17 =>
      -- a colon
      split at h
      · next hr => exact shape_double h hr rfl
      · exact shape_single h rfl
    case h_18 =>
      -- a dot
      split at h
      · exact shape_triple h rfl
      · exact shape_other rfl (by decide) (by simp) h
    case h_22 =>
      -- an at sign
      split at h
      · exact shape_other rfl (by decide) (by simp) h
      · next hpos =>
        obtain ⟨rfl, hlen⟩ := Prod.mk.inj h
        have hall := takeWhile_eq_self_of_runLength hlen
        cases r with
        | nil => exact absurd rfl hpos
        | cons d r => exact .tag hall
    case h_23 => exact shape_of_munchVar h
    case h_24 => exact shape_of_munchString h
    case h_25 =>
      -- any other character
      split at h
      · next hc =>
        obtain ⟨rfl, hlen⟩ := Prod.mk.inj h
        exact .int (List.forall_mem_cons.mpr ⟨hc, takeWhile_eq_self_of_runLength hlen⟩)
      · split at h
        · next hc => exact shape_of_munchWord hc h
        · refine shape_other ?_ (by assumption) (by simp) h
          simp_all [Text.isBlank]
    all_goals exact shape_single h rfl

/-- Every run of blanks is a token. -/
theorem forms_blank {c : Char} {r : Text} (h : ∀ d ∈ c :: r, Text.isBlank d = true) :
    Forms .blank (c :: r) := by
  have hrun : runLength Text.isBlank r = r.length := by
    unfold runLength
    rw [List.takeWhile_eq_self_iff.mpr fun d hd => h d (List.mem_cons_of_mem c hd)]
  rcases isBlank_iff.mp (h c List.mem_cons_self) with rfl | rfl
  · exact congrArg (Kind.blank, ·) hrun
  · exact congrArg (Kind.blank, ·) hrun

/-- The spelling of a symbol or reserved word is the text of every token of its kind. -/
theorem eq_of_forms_symbol {k : Kind} {t x : Text} (h : Forms k t) (hx : k.symbol? = some x) :
    t = x := by
  cases shape_of_forms h with
  | symbol h' => exact Option.some.inj (h'.symm.trans hx)
  | newline | blank | ident | tag | var | int | str | other => simp [Kind.symbol?] at hx

/-! ## Section 3: Characters of tokens -/

/-- The spelling of a symbol holds no blank and no line break. -/
theorem symbol_solid {k : Kind} {t : Text} (h : k.symbol? = some t) :
    t ≠ [] ∧ ∀ c ∈ t, Text.isBlank c = false ∧ c ≠ '\n' := by
  have key : ∀ x ∈ k.symbol?, x ≠ [] ∧ x.all (fun c => !Text.isBlank c && c != '\n') = true := by
    cases k <;> decide
  obtain ⟨hne, hall⟩ := key t h
  exact ⟨hne, by simpa using hall⟩

theorem isIdentPart_of_isDigit {c : Char} (h : c.isDigit = true) : isIdentPart c = true := by
  simp [isIdentPart, isVarPart, h]

theorem isIdentPart_of_isTagPart {c : Char} (h : isTagPart c = true) : isIdentPart c = true := by
  simp only [isTagPart, Bool.or_eq_true, beq_iff_eq] at h
  rcases h with h | rfl
  · have halpha : c.isAlpha = true := (Bool.or_eq_true _ _).mpr (.inr h)
    simp [isIdentPart, isVarPart, isVarStart, halpha]
  · rfl

/-- What may stand in a word is no blank, no line break and no slash. -/
theorem solid_of_isIdentPart {c : Char} (h : isIdentPart c = true) :
    Text.isBlank c = false ∧ c ≠ '\n' ∧ c ≠ '/' := by
  refine ⟨?_, ?_, ?_⟩
  · by_contra hc
    rw [Bool.not_eq_false, isBlank_iff] at hc
    rcases hc with rfl | rfl <;> exact absurd h (by decide)
  · rintro rfl
    exact absurd h (by decide)
  · rintro rfl
    exact absurd h (by decide)

/-- A token other than a blank does not begin with one. -/
theorem isBlank_head_of_forms {k : Kind} {t : Text} (h : Forms k t) (hk : k ≠ .blank) :
    ∀ c ∈ t.head?, Text.isBlank c = false := by
  intro c hc
  have hmem := List.mem_of_mem_head? hc
  -- one case per shape; the first character tells
  cases shape_of_forms h with
  | symbol h' => exact ((symbol_solid h').2 c hmem).1
  | blank h' => exact absurd rfl hk
  | ident h' => exact (solid_of_isIdentPart (h' c hmem)).1
  | int h' => exact (solid_of_isIdentPart (isIdentPart_of_isDigit (h' c hmem))).1
  | other h' => 
    obtain rfl : _ = c := Option.some.inj hc
    exact h'
  | newline | tag | var | str =>
    obtain rfl : _ = c := Option.some.inj hc
    rfl

/-- Only the token of a line break holds one. -/
theorem not_mem_newline_of_forms {k : Kind} {t : Text} (h : Forms k t) (hk : k ≠ .newline) :
    '\n' ∉ t := by
  intro hmem
  -- one case per shape; every character counts
  cases shape_of_forms h with
  | symbol h' => exact ((symbol_solid h').2 _ hmem).2 rfl
  | newline => exact hk rfl
  | blank h' => exact absurd (h' _ hmem) (by decide)
  | ident h' => exact (solid_of_isIdentPart (h' _ hmem)).2.1 rfl
  | int h' => exact (solid_of_isIdentPart (isIdentPart_of_isDigit (h' _ hmem))).2.1 rfl
  | tag h' =>
    rcases List.mem_cons.mp hmem with h | hmem
    · exact absurd h (by decide)
    · exact (solid_of_isIdentPart (isIdentPart_of_isTagPart (h' _ hmem))).2.1 rfl
  | var h' =>
    rcases List.mem_cons.mp hmem with h | hmem
    · exact absurd h (by decide)
    · exact (solid_of_isIdentPart (isIdentPart_of_isVarPart (h' _ hmem))).2.1 rfl
  | str h' => simp [h'] at hmem
  | other _ h' => exact h' hmem

end Token

end Docblock
