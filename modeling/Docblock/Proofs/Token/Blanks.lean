import Docblock.Proofs.Text.Trim
import Docblock.Proofs.Token.Shape

/-!
# Blanks inside tokens

Two kinds of token take in blanks: quoted strings, and other text.  A printer sets the blanks of a
line anew, so it may lengthen or shorten those inside such a token.  This module shows that it
stays one token of the same kind, and goes on with the same characters.

What decides is the part `u` before the blanks.  It is other text already, and all that matters of
it is whether it leaves a string open (`forms_append_blanks_iff`).
-/

namespace Docblock.Token

open Text (Blanks)

variable {k : Kind} {c : Char} {p s b q u : Text}

theorem not_isTagPart_of_isBlank {d : Char} (h : Text.isBlank d = true) : isTagPart d = false := by
  rcases isBlank_iff.mp h with rfl | rfl <;> decide

theorem not_isVarPart_of_isBlank {d : Char} (h : Text.isBlank d = true) : isVarPart d = false := by
  rcases isBlank_iff.mp h with rfl | rfl <;> decide

theorem blanks_of_forms (h : Forms .blank s) : Blanks s := by
  cases shape_of_forms h with
  | symbol h' => cases h'
  | blank h' => exact h'

/-- Only blanks and other text go on with a blank. -/
theorem goesOn_of_isBlank {d : Char} (h : Text.isBlank d = true) (k : Kind) (t : Text) :
    goesOn k t d = (k == .blank || k == .other) := by
  rcases isBlank_iff.mp h with rfl | rfl <;> cases k <;> rfl

/-! ## Section 1: Other text in front of a blank -/

/-- Other text that is complete goes on with what does not end it. -/
theorem otherRun_append {n : Nat} (hn : n ≤ p.length) (h : otherRun n p = p.length) (s : Text) :
    otherRun n (p ++ s) = p.length + runLength (fun c => !endsOther c) s := by
  have hall : ∀ c ∈ p.drop n, (!endsOther c) = true := by
    refine takeWhile_eq_self_of_runLength ?_
    rw [List.length_drop]
    unfold otherRun at h
    omega
  unfold otherRun runLength
  rw [List.drop_append_of_le_length hn, List.takeWhile_append_of_pos hall, List.length_append,
    List.length_drop]
  omega

theorem stringBody_append_blank (h : stringBody p ≠ p.length)
    (hs : ∀ d ∈ s.head?, Text.isBlank d = true) : stringBody (p ++ s) = stringBody p := by
  refine stringBody_append_of_stop (lt_of_le_of_ne (stringBody_le_length p) h) fun _ d hd => ?_
  rcases isBlank_iff.mp (hs d hd) with rfl | rfl <;> decide

theorem takeWhile_append_of_head {P : Char → Bool} (hs : ∀ d ∈ s.head?, P d = false) :
    (p ++ s).takeWhile P = p.takeWhile P := by
  induction p with
  | nil => exact takeWhile_eq_nil_iff_head?.mpr hs
  | cons d p ih => cases hd : P d <;> simp [hd, ih]

/-- A name does not go on with a blank. -/
theorem varName_append_blank (hs : ∀ d ∈ s.head?, Text.isBlank d = true) :
    varName (p ++ s) = varName p := by
  cases p with
  | nil =>
    cases s with
    | nil => rfl
    | cons d s =>
      have hd : isVarStart d = false := by
        have := not_isVarPart_of_isBlank (hs d rfl)
        simp only [isVarPart, Bool.or_eq_false_iff] at this
        exact this.1
      simp [varName, hd]
  | cons d p =>
    have htake : (d :: p ++ s).takeWhile isVarPart = (d :: p).takeWhile isVarPart :=
      takeWhile_append_of_head fun d hd => not_isVarPart_of_isBlank (hs d hd)
    change (if isVarStart d then (d :: p ++ s).takeWhile isVarPart else []) = _
    rw [htake]
    rfl

/-- A dollar that began other text still does with blanks behind it. -/
theorem munchVar_append_blank (h : munchVar p = (.other, p.length))
    (hs : ∀ d ∈ s.head?, Text.isBlank d = true) :
    munchVar p = (.other, otherRun 0 p) ∧ munchVar (p ++ s) = (.other, otherRun 0 (p ++ s)) := by
  rw [munchVar_eq] at h
  split at h
  · next hvar =>
    rw [munchVar_eq, munchVar_eq, if_pos hvar, varName_append_blank hs, if_pos]
    · exact ⟨rfl, rfl⟩
    · refine hvar.imp_right fun hdash => ?_
      rw [List.drop_append_of_le_length (isPrefix_varName p).length_le]
      rw [List.head?_append, hdash, Option.some_or]
  · have := congrArg Prod.fst h
    simp only at this
    split at this <;> cases this

theorem head?_ne_of_blank (hs : ∀ d ∈ s.head?, Text.isBlank d = true) {d : Char}
    (hd : Text.isBlank d = false) : s.head? ≠ some d := by
  intro heq
  rw [hs d heq] at hd
  cases hd

theorem head?_append_ne_of_blank (hs : ∀ d ∈ s.head?, Text.isBlank d = true) {x : Text} {d : Char}
    (hx : x.head? ≠ some d) (hd : Text.isBlank d = false) : (x ++ s).head? ≠ some d := by
  cases x with
  | nil => exact head?_ne_of_blank hs hd
  | cons e x => exact hx

/-- Other text, and other text again with `s` behind it, both measured from the same place. -/
def Runs (c : Char) (p s : Text) : Prop :=
  ∃ n ≤ p.length, munch c p = (.other, otherRun n p) ∧
    munch c (p ++ s) = (.other, otherRun n (p ++ s))

/-- Other text that begins with a slash goes on over blanks. -/
theorem runs_slash (h : Forms .other ('/' :: p)) (hs : ∀ d ∈ s.head?, Text.isBlank d = true) :
    Runs '/' p s := by
  -- after a star no second one stands, so the blanks complete no opening
  by_cases hp : p.head? = some '*'
  · obtain ⟨p, rfl⟩ := List.head?_eq_some_iff.mp hp
    have hp' : p.head? ≠ some '*' := by
      rintro hd
      obtain ⟨p, rfl⟩ := List.head?_eq_some_iff.mp hd
      cases h
    exact ⟨1, by simp, munch_slash_star hp',
      munch_slash_star (head?_append_ne_of_blank hs hp' (by decide))⟩
  · exact ⟨0, Nat.zero_le _, munch_slash hp,
      munch_slash (head?_append_ne_of_blank hs hp (by decide))⟩

/-- So does other text that begins with a dot. -/
theorem runs_dot (h : Forms .other ('.' :: p)) (hs : ∀ d ∈ s.head?, Text.isBlank d = true) :
    Runs '.' p s := by
  have hp : ¬∃ y, p = '.' :: '.' :: y := by
    rintro ⟨y, rfl⟩
    cases h
  -- a blank is no dot, so the ellipsis is not completed
  have hps : ¬∃ y, p ++ s = '.' :: '.' :: y := by
    rintro ⟨y, hy⟩
    rcases p with _ | ⟨a, _ | ⟨d, p⟩⟩
    · exact head?_ne_of_blank hs (d := '.') (by decide) (by rw [show s = _ from hy]; rfl)
    · obtain ⟨-, rfl⟩ := List.cons.inj hy
      exact head?_ne_of_blank hs (d := '.') (by decide) rfl
    · obtain ⟨rfl, rfl, -⟩ : a = '.' ∧ d = '.' ∧ _ := by simpa using hy
      exact hp ⟨p, rfl⟩
  exact ⟨0, Nat.zero_le _, munch_dot hp, munch_dot hps⟩

/-- So does other text that begins with `@`. -/
theorem runs_at (h : Forms .other ('@' :: p)) (hs : ∀ d ∈ s.head?, Text.isBlank d = true) :
    Runs '@' p s := by
  change munch '@' p = _ at h
  have hp : p.takeWhile isTagPart = [] := by
    by_contra hne
    rw [munch_at, if_neg hne] at h
    cases h
  have hps : (p ++ s).takeWhile isTagPart = [] := by
    rwa [takeWhile_append_of_head fun d hd => not_isTagPart_of_isBlank (hs d hd)]
  exact ⟨0, Nat.zero_le _, by rw [munch_at, if_pos hp], by rw [munch_at, if_pos hps]⟩

/-- A string that is neither open nor closed was broken off by a backslash. -/
theorem runs_string (h : Forms .other ('\'' :: p)) (hopen : leavesOpen ('\'' :: p) = false)
    (hs : ∀ d ∈ s.head?, Text.isBlank d = true) : Runs '\'' p s := by
  change munchString p = (.other, p.length) at h
  have hlt : stringBody p < p.length :=
    Nat.lt_of_le_of_ne (stringBody_le_length p) (by simpa [leavesOpen] using hopen)
  obtain ⟨d, z, hstop⟩ : ∃ d z, p.drop (stringBody p) = d :: z :=
    List.exists_cons_of_length_pos (by rw [List.length_drop]; omega)
  -- the string ended at a quote, a backslash or a line break, and only a backslash makes other text
  rcases stringBody_stop p d (by simp [hstop]) with rfl | rfl | rfl
  · rw [munchString_of_quote hstop] at h
    cases h
  · have hdrop : (p ++ s).drop (stringBody (p ++ s)) = '\\' :: (z ++ s) := by
      rw [stringBody_append_blank hlt.ne hs, List.drop_append_of_le_length hlt.le, hstop]
      rfl
    refine ⟨stringBody p + 1, hlt, munchString_of_backslash hstop, ?_⟩
    rw [← stringBody_append_blank hlt.ne hs]
    exact munchString_of_backslash hdrop
  · rw [munchString_of_break (by simp [hstop])] at h
    exact absurd (congrArg Prod.snd h) hlt.ne

/-- So does all other text that leaves no string open. -/
theorem runs_of_other (h : Forms .other (c :: p)) (hopen : leavesOpen (c :: p) = false)
    (hs : ∀ d ∈ s.head?, Text.isBlank d = true) : Runs c p s := by
  by_cases hslash : c = '/'
  · subst hslash
    exact runs_slash h hs
  by_cases hdot : c = '.'
  · subst hdot
    exact runs_dot h hs
  by_cases hat : c = '@'
  · subst hat
    exact runs_at h hs
  have hform : munch c p = (.other, p.length) := h
  unfold munch at hform
  split at hform
  case h_4 => exact absurd rfl hslash
  case h_5 => split at hform <;> cases hform
  case h_17 => split at hform <;> cases hform
  case h_18 => exact absurd rfl hdot
  case h_22 => exact absurd rfl hat
  case h_23 => exact ⟨0, Nat.zero_le _, munchVar_append_blank hform hs⟩
  case h_24 => exact runs_string h hopen hs
  case h_25 =>
    -- any other character
    split at hform
    · cases hform
    · next hdigit =>
      split at hform
      · have := munchWord_kind c p
        rw [hform] at this
        simp at this
      · next hident =>
        have h₀ (x : Text) : munch c x = (.other, otherRun 0 x) := by
          unfold munch
          split <;> simp_all
        exact ⟨0, Nat.zero_le _, h₀ p, h₀ (p ++ s)⟩
  -- every other character begins a token of another kind
  all_goals cases hform

/-- Other text runs on over a blank to the next character that ends it, unless it has left a
string open. -/
theorem munch_append_of_other (h : Forms .other (c :: p)) (hopen : leavesOpen (c :: p) = false)
    (hs : ∀ d ∈ s.head?, Text.isBlank d = true) :
    munch c (p ++ s) = (.other, p.length + runLength (fun c => !endsOther c) s) := by
  obtain ⟨n, hn, hp, hps⟩ := runs_of_other h hopen hs
  have hlen : otherRun n p = p.length := (congrArg Prod.snd hp).symm.trans (congrArg Prod.snd h)
  rw [hps, otherRun_append hn hlen]

/-- An open string goes on as a string does behind its opening quote. -/
theorem munch_append_of_open (h : leavesOpen ('\'' :: p) = true) (s : Text) :
    munch '\'' (p ++ s) = ((munchString s).1, p.length + (munchString s).2) := by
  have hbody : stringBody (p ++ s) = p.length + stringBody s :=
    stringBody_append_of_open (by simpa [leavesOpen] using h) s
  have hdrop (n : Nat) : (p ++ s).drop (p.length + n) = s.drop n := by simp
  change munchString (p ++ s) = _
  unfold munchString
  simp only [hbody, hdrop]
  -- a quote, a backslash or a break behind the open string
  split
  · rfl
  · simp only [otherRun, Nat.add_assoc, hdrop]
  · simp only [otherRun, Nat.add_assoc, hdrop]

theorem eq_quote_of_leavesOpen (h : leavesOpen (c :: p) = true) : c = '\'' := by
  unfold leavesOpen at h
  split at h
  · next heq => exact (List.cons.inj heq).1
  · cases h

/-- A token in front of a text, and what ends it, are found in every longer text. -/
theorem forms_other_of_append_blank {d : Char} (h : Forms k (c :: p ++ d :: s)) (hk : k ≠ .blank)
    (hd : Text.isBlank d = true) : Forms .other (c :: p) := by
  obtain ⟨k', t, rest, ht, hne, hforms, hgo⟩ := exists_forms (List.cons_ne_nil c p)
  obtain ⟨c', r, rfl⟩ := List.exists_cons_of_ne_nil hne
  obtain ⟨rfl, rfl⟩ := List.cons.inj ht
  -- the token of the whole text is longer, so what follows goes on with the one found here
  have hlong : ¬∀ e ∈ (rest ++ d :: s).head?, goesOn k' (c :: r) e = false := by
    intro hgo'
    have hmunch := munch_of_forms hforms hgo'
    rw [← List.append_assoc, show munch c (r ++ rest ++ d :: s) = _ from h] at hmunch
    have := congrArg Prod.snd hmunch
    simp at this
  obtain rfl : rest = [] := by
    cases rest with
    | nil => rfl
    | cons e rest => exact absurd hgo hlong
  have hgoes : goesOn k' (c :: r) d = true := by simpa using hlong
  rw [show r.append [] = r from List.append_nil r]
  rw [goesOn_of_isBlank hd, Bool.or_eq_true, beq_iff_eq, beq_iff_eq] at hgoes
  rcases hgoes with rfl | rfl
  · -- blanks go on as blanks only
    cases shape_of_forms hforms with
    | symbol h' => cases h'
    | blank h' =>
      refine absurd ?_ hk
      have hc : Text.isBlank c = true := h' c List.mem_cons_self
      rcases isBlank_iff.mp hc with rfl | rfl <;> exact (congrArg Prod.fst h).symm
  · exact hforms

/-! ## Section 2: Blanks of any length -/

theorem runLength_blanks (hb : Blanks b) (q : Text) :
    runLength (fun c => !endsOther c) (b ++ q) = b.length + runLength (fun c => !endsOther c) q := by
  have hall : ∀ c ∈ b, (!endsOther c) = true := by
    intro c hc
    rcases isBlank_iff.mp (hb c hc) with rfl | rfl <;> decide
  unfold runLength
  rw [List.takeWhile_append_of_pos hall, List.length_append]

/-- They are part of the inside of a string. -/
theorem stringBody_blanks (hb : Blanks b) (q : Text) :
    stringBody (b ++ q) = b.length + stringBody q := by
  refine stringBody_append_of_open ?_ q
  induction b with
  | nil => rfl
  | cons c b ih =>
    have hbody : stringBody (c :: b) = stringBody b + 1 := by
      rcases isBlank_iff.mp (hb c List.mem_cons_self) with rfl | rfl <;>
        exact stringBody_cons (by decide) (by decide) (by decide) b
    rw [hbody, ih fun d hd => hb d (List.mem_cons_of_mem c hd), List.length_cons]

theorem munchString_blanks (hb : Blanks b) (q : Text) :
    munchString (b ++ q) = ((munchString q).1, b.length + (munchString q).2) := by
  have h : leavesOpen ('\'' :: b) = true := by
    have := stringBody_blanks hb []
    rw [List.append_nil] at this
    simpa [leavesOpen, stringBody] using this
  exact munch_append_of_open h q

/-- What follows the blanks after the other text `u` so that the whole is one token. -/
def ClosesOff (k : Kind) (u q : Text) : Prop :=
  if leavesOpen u then munchString q = (k, q.length)
  else k = .other ∧ runLength (fun c => !endsOther c) q = q.length

/-- Other text with blanks and more behind it is one token in the same cases, however many the
blanks are. -/
theorem forms_append_blanks_iff (hu : Forms .other u) (hb : Blanks b)
    (hend : b = [] → q = []) : Forms k (u ++ (b ++ q)) ↔ ClosesOff k u q := by
  cases u with
  | nil => exact absurd hu id
  | cons c p =>
    have hhead : ∀ d ∈ (b ++ q).head?, Text.isBlank d = true := by
      cases b with
      | nil => simp [hend rfl]
      | cons d b => exact hb.head
    change munch c (p ++ (b ++ q)) = (k, (p ++ (b ++ q)).length) ↔ _
    unfold ClosesOff
    split
    · -- inside an open string: what follows the blanks closes it or not
      next hopen =>
      obtain rfl := eq_quote_of_leavesOpen hopen
      rw [munch_append_of_open hopen, munchString_blanks hb, Prod.ext_iff, Prod.ext_iff]
      simp
    · -- no string is open, so the token is other text as long as nothing ends it
      next hopen =>
      rw [munch_append_of_other hu (by simpa using hopen) hhead, runLength_blanks hb]
      simp [eq_comm]

/-- Only strings and other text hold blanks. -/
theorem kind_of_closesOff (h : ClosesOff k u q) : k = .str ∨ k = .other := by
  unfold ClosesOff at h
  split at h
  · have hkind : (munchString q).1 = .str ∨ (munchString q).1 = .other := by
      unfold munchString
      simp only
      split <;> simp
    rwa [h] at hkind
  · exact .inr h.1

/-- A token that holds blanks begins with other text. -/
theorem closesOff_of_forms (h : Forms k (u ++ (b ++ q))) (hu : u ≠ []) (hk : k ≠ .blank)
    (hb : Blanks b) (hne : b ≠ []) : Forms .other u ∧ ClosesOff k u q := by
  obtain ⟨c, p, rfl⟩ := List.exists_cons_of_ne_nil hu
  obtain ⟨d, b, rfl⟩ := List.exists_cons_of_ne_nil hne
  have hother : Forms .other (c :: p) := forms_other_of_append_blank h hk (hb d List.mem_cons_self)
  exact ⟨hother, (forms_append_blanks_iff hother hb (by simp)).mp h⟩

theorem leavesOpen_of_ne {d : Char} (hd : d ≠ '\'') (s : Text) : leavesOpen (d :: s) = false := by
  unfold leavesOpen
  split <;> simp_all

/-- Whether a string is left open does not depend on the blanks inside it. -/
theorem leavesOpen_append_blanks (hu : u ≠ []) (hb : Blanks b) (hend : b = [] → q = []) :
    leavesOpen (u ++ (b ++ q)) = (leavesOpen u && stringBody q == q.length) := by
  obtain ⟨c, p, rfl⟩ := List.exists_cons_of_ne_nil hu
  by_cases hc : c = '\''
  · subst hc
    change (stringBody (p ++ (b ++ q)) == (p ++ (b ++ q)).length) =
      ((stringBody p == p.length) && _)
    by_cases hopen : stringBody p = p.length
    · rw [stringBody_append_of_open hopen, stringBody_blanks hb, hopen]
      simp
    · have hhead : ∀ d ∈ (b ++ q).head?, Text.isBlank d = true := by
        cases b with
        | nil => simp [hend rfl]
        | cons d b => exact hb.head
      have := stringBody_le_length p
      rw [stringBody_append_blank hopen hhead, beq_eq_false_iff_ne.mpr hopen, Bool.false_and,
        beq_eq_false_iff_ne, List.length_append]
      omega
  · rw [List.cons_append, leavesOpen_of_ne hc, leavesOpen_of_ne hc, Bool.false_and]

/-- A token with the blanks inside it set anew is the same kind of token. -/
theorem Forms.resize {b' : Text} (h : Forms k (u ++ (b ++ q))) (hu : u ≠ []) (hk : k ≠ .blank)
    (hb : Blanks b) (hne : b ≠ []) (hb' : Blanks b') (hne' : b' ≠ []) :
    Forms k (u ++ (b' ++ q)) := by
  obtain ⟨hother, hcloses⟩ := closesOff_of_forms h hu hk hb hne
  rwa [forms_append_blanks_iff hother hb' (fun h => absurd h hne')]

/-- Other text with a blank in it is no opening, so it goes on with all that does not end it. -/
theorem goesOn_other_of_mem_blank {t : Text} {d e : Char} (he : Text.isBlank e = true) (hmem : e ∈ t) :
    goesOn .other t d = (!endsOther d || (d != '\n' && leavesOpen t)) := by
  have hne (x : Text) (hx : x.all (!Text.isBlank ·) = true) : t ≠ x := by
    rintro rfl
    have := List.all_eq_true.mp hx e hmem
    rw [he] at this
    cases this
  have h₁ : (t == "/".toList) = false := beq_eq_false_iff_ne.mpr (hne _ (by decide))
  have h₂ : (t == "/*".toList) = false := beq_eq_false_iff_ne.mpr (hne _ (by decide))
  rw [goesOn, h₁, h₂, Bool.or_self, Bool.and_false, Bool.or_false]

/-- It also goes on with the same characters. -/
theorem goesOn_resize {b' : Text} (hu : u ≠ []) (hb : Blanks b) (hne : b ≠ []) (hb' : Blanks b')
    (hne' : b' ≠ []) (k : Kind) (d : Char) :
    goesOn k (u ++ (b' ++ q)) d = goesOn k (u ++ (b ++ q)) d := by
  cases k with
  | other =>
    have hmem {x : Text} (hx : Blanks x) (hx' : x ≠ []) :
        ∃ e ∈ u ++ (x ++ q), Text.isBlank e = true := by
      obtain ⟨e, x, rfl⟩ := List.exists_cons_of_ne_nil hx'
      exact ⟨e, by simp, hx e List.mem_cons_self⟩
    obtain ⟨e, he, heb⟩ := hmem hb hne
    obtain ⟨e', he', heb'⟩ := hmem hb' hne'
    rw [goesOn_other_of_mem_blank heb he, goesOn_other_of_mem_blank heb' he',
      leavesOpen_append_blanks hu hb (fun h => absurd h hne),
      leavesOpen_append_blanks hu hb' (fun h => absurd h hne')]
  | _ => rfl

/-- Blanks at the end of other text may be set anew, and left out. -/
theorem Forms.resize_end {b' : Text} (h : Forms .other (u ++ b)) (hu : u ≠ []) (hb : Blanks b)
    (hb' : Blanks b') : Forms .other (u ++ b') := by
  -- the part in front of the blanks is other text by itself
  have hother : Forms .other u := by
    cases b with
    | nil => simpa using h
    | cons d b =>
      obtain ⟨c, p, rfl⟩ := List.exists_cons_of_ne_nil hu
      exact forms_other_of_append_blank h (by decide) (hb d List.mem_cons_self)
  have := (forms_append_blanks_iff (k := .other) (q := []) hother hb' (fun _ => rfl)).mpr
  rw [List.append_nil] at this
  apply this
  unfold ClosesOff
  split
  · rfl
  · exact ⟨rfl, rfl⟩

end Docblock.Token
