import Docblock.Proofs.Lexeme.Words
import Docblock.Proofs.Token.Blanks
import Mathlib.Data.List.Forall2

/-!
# Text whose blanks are set anew

Printing keeps free text as it is, but the blanks before and after it change.  The words of the
text then stay alike: the same kinds in the same order, with blanks between them where there were
some before.

- `alike_resize`: blanks of another length in the middle of a text.
- `alike_append_blanks`: blanks at its end, where there were none.
-/

namespace Docblock.Word

open Text (Blanks)
open Token (Forms goesOn)

/-! ## Section 1: Words that are alike -/

/-- The same kind of word, and the same text unless it is one that may hold blanks. -/
structure Like (w w' : Word) : Prop where
  kind : w'.kind = w.kind
  text : w.kind ≠ .str → w.kind ≠ .other → w'.text = w.text
  gap : w'.gap = [] ↔ w.gap = []

theorem Like.refl (w : Word) : Like w w :=
  ⟨rfl, fun _ _ => rfl, Iff.rfl⟩

theorem Like.symm {w w' : Word} (h : Like w w') : Like w' w where
  kind := h.kind.symm
  text h₁ h₂ := (h.text (h.kind ▸ h₁) (h.kind ▸ h₂)).symm
  gap := h.gap.symm

theorem Like.trans {w w' w'' : Word} (h : Like w w') (h' : Like w' w'') : Like w w'' where
  kind := h'.kind.trans h.kind
  text h₁ h₂ := (h'.text (h.kind ▸ h₁) (h.kind ▸ h₂)).trans (h.text h₁ h₂)
  gap := h'.gap.trans h.gap

/-- Words that are alike one by one. -/
abbrev Alike : List Word → List Word → Prop :=
  List.Forall₂ Like

theorem Alike.refl (ws : List Word) : Alike ws ws :=
  List.forall₂_same.mpr fun w _ => Like.refl w

theorem Alike.symm {ws ws' : List Word} (h : Alike ws ws') : Alike ws' ws := by
  induction h with
  | nil => exact .nil
  | cons hw _ ih => exact .cons hw.symm ih

theorem Alike.trans {ws ws' ws'' : List Word} (h : Alike ws ws') (h' : Alike ws' ws'') :
    Alike ws ws'' := by
  induction h generalizing ws'' with
  | nil => exact h'
  | cons hw _ ih =>
    cases h' with
    | cons hw' hws' => exact .cons (hw.trans hw') (ih hws')

theorem Alike.append {a a' b b' : List Word} (ha : Alike a a') (hb : Alike b b') :
    Alike (a ++ b) (a' ++ b') := by
  induction ha with
  | nil => exact hb
  | cons hw _ ih => exact .cons hw ih

theorem Alike.map_kind {ws ws' : List Word} (h : Alike ws ws') :
    ws'.map Word.kind = ws.map Word.kind := by
  induction h with
  | nil => rfl
  | cons hw _ ih => rw [List.map_cons, List.map_cons, hw.kind, ih]

/-! ## Section 2: Blanks in the middle of a text -/

variable {p q b b' gap gap' : Text}

theorem isBlank_head_dropWhile (s : Text) :
    ∀ d ∈ (s.dropWhile Text.isBlank).head?, Text.isBlank d = false := by
  have := List.head?_dropWhile_not Text.isBlank s
  intro d hd
  rw [Option.mem_def.mp hd] at this
  simpa using this

/-- The blanks in front of a text only add to the gap of its first word. -/
theorem scan_blanks_append (hb : Blanks b) (s gap : Text) :
    scan gap (b ++ s) = scan (gap ++ (b ++ s.takeWhile Text.isBlank)) (s.dropWhile Text.isBlank) := by
  have hrun : Blanks (b ++ s.takeWhile Text.isBlank) :=
    List.forall_mem_append.mpr ⟨hb, fun c hc => List.mem_takeWhile_imp hc⟩
  rw [← scan_blanks hrun (isBlank_head_dropWhile s), List.append_assoc, List.takeWhile_append_dropWhile]

/-- The blanks before the first word count only as being there or not. -/
theorem alike_scan_gap (hgap : gap' = [] ↔ gap = []) {s : Text}
    (hs : ∀ d ∈ s.head?, Text.isBlank d = false) : Alike (scan gap s) (scan gap' s) := by
  by_cases hnil : s = []
  · subst hnil
    rw [scan_nil, scan_nil]
    exact .nil
  · obtain ⟨k, t, rest, rfl, -, hforms, hgo⟩ := Token.exists_forms hnil
    -- the text begins with no blank, so its first token is a word
    have hk : k ≠ .blank := by
      rintro rfl
      cases Token.shape_of_forms hforms with
      | symbol h => cases h
      | @blank c r h => simpa [h c] using hs c
    rw [scan_token hforms hk hgo, scan_token hforms hk hgo]
    exact .cons ⟨rfl, fun _ _ => rfl, hgap⟩ (Alike.refl _)

theorem alike_scan_blanks (hb : Blanks b) (hne : b ≠ []) (hb' : Blanks b') (hne' : b' ≠ [])
    (s gap gap' : Text) : Alike (scan gap (b ++ s)) (scan gap' (b' ++ s)) := by
  rw [scan_blanks_append hb, scan_blanks_append hb']
  exact alike_scan_gap (by simp [hne, hne']) (isBlank_head_dropWhile s)

/-- A token that ends in a blank is other text, unless it is all blanks. -/
theorem kind_of_forms_append_blanks {k : Kind} {u : Text} (h : Forms k (u ++ b)) (hu : u ≠ [])
    (hk : k ≠ .blank) (hb : Blanks b) (hne : b ≠ []) : k = .other := by
  rw [← List.append_nil b] at h
  have hcloses := (Token.closesOff_of_forms h hu hk hb hne).2
  unfold Token.ClosesOff at hcloses
  split at hcloses
  · exact (congrArg Prod.fst hcloses).symm
  · exact hcloses.1

/-- The front part of a text ends inside the first part of another cut, or goes beyond it. -/
theorem split_around {p s t rest : Text} (h : p ++ s = t ++ rest) :
    (∃ p', p = t ++ p' ∧ rest = p' ++ s) ∨ ∃ a, a ≠ [] ∧ t = p ++ a ∧ s = a ++ rest := by
  rcases List.append_eq_append_iff.mp h with ⟨_ | ⟨c, a⟩, rfl, rfl⟩ | ⟨p', rfl, rfl⟩
  · exact .inl ⟨[], by simp, rfl⟩
  · exact .inr ⟨c :: a, List.cons_ne_nil c a, rfl, rfl⟩
  · exact .inl ⟨p', rfl, rfl⟩

/-- Any two blanks go on with the same tokens. -/
theorem goesOn_of_head {k : Kind} {t s : Text} {d : Char} (hd : Text.isBlank d = true)
    (hs : ∀ e ∈ s.head?, Text.isBlank e = true) (h : goesOn k t d = false) :
    ∀ e ∈ s.head?, goesOn k t e = false := by
  intro e he
  rwa [Token.goesOn_of_isBlank (hs e he), ← Token.goesOn_of_isBlank hd k t]

/-- A token that takes in one of the blanks takes in all of them. -/
theorem exists_of_forms_across {k : Kind} {a rest : Text} (h : Forms k (p ++ a)) (hp : p ≠ [])
    (hk : k ≠ .blank) (hane : a ≠ []) (hb : Blanks b) (hsplit : b ++ q = a ++ rest)
    (hgo : ∀ e ∈ rest.head?, goesOn k (p ++ a) e = false) : ∃ x, a = b ++ x ∧ q = x ++ rest := by
  rcases List.append_eq_append_iff.mp hsplit with ⟨x, ha, hq⟩ | ⟨_ | ⟨e, y⟩, hby, hrest⟩
  · exact ⟨x, ha, hq⟩
  · exact ⟨[], by simpa using hby.symm, by simpa using hrest.symm⟩
  · -- it would end at the blank `e`, but other text does not
    have hab : Blanks a := fun c hc => hb c (by rw [hby]; exact List.mem_append_left _ hc)
    have heb : Text.isBlank e = true := hb e (by simp [hby])
    obtain rfl := kind_of_forms_append_blanks h hp hk hab hane
    have := hgo e (by simp [hrest])
    rw [Token.goesOn_of_isBlank heb] at this
    cases this

/-- The blanks inside a token change their length. -/
theorem alike_resize_token {k : Kind} {x rest : Text} (h : Forms k (p ++ (b ++ x))) (hp : p ≠ [])
    (hk : k ≠ .blank) (hb : Blanks b) (hne : b ≠ []) (hb' : Blanks b') (hne' : b' ≠ [])
    (hgo : ∀ e ∈ rest.head?, goesOn k (p ++ (b ++ x)) e = false) (hgap : gap' = [] ↔ gap = []) :
    Alike (scan gap (p ++ (b ++ (x ++ rest)))) (scan gap' (p ++ (b' ++ (x ++ rest)))) := by
  have h' := Token.Forms.resize h hp hk hb hne hb' hne'
  -- what stopped the token stops it still
  have hgo' : ∀ e ∈ rest.head?, goesOn k (p ++ (b' ++ x)) e = false := by
    intro e he
    rw [Token.goesOn_resize hp hb hne hb' hne']
    exact hgo e he
  -- a token with blanks inside is a string or other text
  have htext : k ≠ .str → k ≠ .other → p ++ (b' ++ x) = p ++ (b ++ x) := by
    intro hstr hother
    have hkind := Token.kind_of_closesOff (Token.closesOff_of_forms h hp hk hb hne).2
    exact absurd hkind (not_or.mpr ⟨hstr, hother⟩)
  have hsplit (y : Text) : p ++ (y ++ (x ++ rest)) = (p ++ (y ++ x)) ++ rest := by simp
  rw [hsplit, hsplit, scan_token h hk hgo, scan_token h' hk hgo']
  exact .cons ⟨rfl, htext, hgap⟩ (Alike.refl _)

/-- Words stay alike when blanks in the middle of a text change their length. -/
theorem alike_resize (hb : Blanks b) (hne : b ≠ []) (hb' : Blanks b') (hne' : b' ≠ [])
    (hgap : gap' = [] ↔ gap = []) :
    Alike (scan gap (p ++ (b ++ q))) (scan gap' (p ++ (b' ++ q))) := by
  -- by induction on the length of `p`, from which the first token is taken
  induction hn : p.length using Nat.strong_induction_on generalizing p gap gap' with
  | _ n ih =>
    by_cases hp : p = []
    · subst hp
      exact alike_scan_blanks hb hne hb' hne' q gap gap'
    obtain ⟨d, bs, hd⟩ := List.exists_cons_of_ne_nil hne
    obtain ⟨k, t, rest, ht, htne, hforms, hgo⟩ :=
      Token.exists_forms (s := p ++ (b ++ q)) (by simp [hp])
    rcases split_around ht with ⟨p', rfl, rfl⟩ | ⟨a, hane, rfl, hrest⟩
    · -- the token ends before the blanks
      have hlt : p'.length < n := by
        have := List.length_pos_of_ne_nil htne
        rw [List.length_append] at hn
        omega
      have hgo' : ∀ e ∈ (p' ++ (b' ++ q)).head?, goesOn k t e = false := by
        cases p' with
        | nil =>
          have hhead : ∀ e ∈ (b' ++ q).head?, Text.isBlank e = true := by
            rw [List.head?_append_of_ne_nil _ hne']
            exact hb'.head
          exact goesOn_of_head (hb d (by simp [hd])) hhead (hgo d (by simp [hd]))
        | cons c p' => exact hgo
      rw [List.append_assoc, List.append_assoc]
      by_cases hk : k = .blank
      · subst hk
        have htb : Blanks t := Token.blanks_of_forms hforms
        rw [scan_blanks htb hgo, scan_blanks htb hgo']
        exact ih _ hlt (by simp [htne]) rfl
      · rw [scan_token hforms hk hgo, scan_token hforms hk hgo']
        exact .cons ⟨rfl, fun _ _ => rfl, hgap⟩ (ih _ hlt Iff.rfl rfl)
    · -- the token takes in some of the blanks
      by_cases hk : k = .blank
      · subst hk
        have hpb : Blanks p := fun c hc =>
          Token.blanks_of_forms hforms c (List.mem_append_left a hc)
        rw [← List.append_assoc, ← List.append_assoc]
        exact alike_scan_blanks (List.forall_mem_append.mpr ⟨hpb, hb⟩) (by simp [hne])
          (List.forall_mem_append.mpr ⟨hpb, hb'⟩) (by simp [hne']) q gap gap'
      · obtain ⟨x, rfl, rfl⟩ := exists_of_forms_across hforms hp hk hane hb hrest hgo
        exact alike_resize_token hforms hp hk hb hne hb' hne' hgo hgap

/-! ## Section 3: Blanks at the end of a text -/

/-- Words stay alike when blanks are added at the end of a text. -/
theorem alike_append_blanks (hb : Blanks b) (s : Text) : Alike (scan [] s) (scan [] (s ++ b)) := by
  obtain ⟨tail, hs, hstands, htail⟩ := exists_scan s
  generalize hws : scan [] s = ws at hs hstands
  have hall : Blanks (tail ++ b) := List.forall_mem_append.mpr ⟨htail, hb⟩
  rw [hs, List.append_assoc]
  by_cases hgo : Stands ws (tail ++ b).head?
  · rw [scan_eq hgo hall]
    exact Alike.refl ws
  · -- the last word goes on with the blanks, so it is other text, and grows longer
    obtain ⟨w, hw, d, hd, hgoes⟩ : ∃ w ∈ ws.getLast?, ∃ d ∈ (tail ++ b).head?,
        goesOn w.kind w.text d = true := by
      by_contra hnone
      push Not at hnone
      exact hgo (hstands.of_last (by simpa using hnone))
    obtain ⟨a, rfl⟩ := List.getLast?_eq_some_iff.mp hw
    obtain rfl : tail = [] := by
      cases tail with
      | nil => rfl
      | cons c tail => exact absurd hstands hgo
    obtain ⟨hfront, hlast, -⟩ := stands_append.mp hstands
    have hdb : Text.isBlank d = true := hall d (List.mem_of_mem_head? hd)
    -- only other text goes on with a blank
    have hkind : w.kind = .other := by
      rw [Token.goesOn_of_isBlank hdb, Bool.or_eq_true, beq_iff_eq, beq_iff_eq] at hgoes
      exact hgoes.resolve_left hlast.solid
    have hne : w.text ≠ [] := Token.forms_ne_nil hlast.forms
    -- the last word leaves a string open, in which any blanks may stand at its end
    have hforms : Forms .other (w.text ++ b) := by
      have := hlast.forms
      rw [hkind, ← List.append_nil w.text] at this
      exact Token.Forms.resize_end this hne (by simp [Blanks]) hb
    -- the longer word stands where the last one stood
    have hlonger : Stands (a ++ [{ w with text := w.text ++ b }]) none := by
      refine stands_append.mpr ⟨?_, ⟨by rw [hkind]; exact hforms, hlast.solid, hlast.blank⟩,
        by simp, trivial⟩
      have hhead : (source [{ w with text := w.text ++ b }]).head? = (source [w]).head? := by
        obtain ⟨c, t, hc⟩ := List.exists_cons_of_ne_nil hne
        cases hgap : w.gap <;> simp [hc, hgap]
      obtain ⟨c, hc⟩ : ∃ c, (source [w]).head? = some c := by
        obtain ⟨c, x, hx⟩ := List.exists_cons_of_ne_nil (source_ne_nil (stands_append.mp hstands).2)
        exact ⟨c, by rw [hx]; rfl⟩
      rw [hhead, hc]
      rwa [hc] at hfront
    -- all words but the last one are the same
    have hscan := scan_source hlonger
    rw [source_append, source_cons, source_nil, List.append_nil] at hscan
    rw [List.nil_append, source_append, source_cons, source_nil, List.append_nil, List.append_assoc,
      List.append_assoc, hscan]
    exact (Alike.refl a).append (.cons ⟨rfl, fun _ h => absurd hkind h, Iff.rfl⟩ .nil)

end Docblock.Word
