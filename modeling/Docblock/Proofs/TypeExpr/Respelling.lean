import Docblock.Proofs.TypeExpr.Complete
import Docblock.TypeExpr.Printer

/-!
# Printed types are spellings

The printed form of a type spells the same type.  It is put together from the words of any spelling
of it: some of them are left out (a comma before a closing bracket, the parentheses of a callable
that has neither parameters nor a result), and the gaps are set anew.

What may follow the printed form is what may follow the spelling it came from, with one exception.
`callable()` is printed as `callable`, and a parenthesis that could follow the former would be read
as a signature after the latter.  `TypeExpr.endsInCallable` tells which types are affected.

## Contents

1. The right end of a type.
2. Leaves: names, constants and binders.
3. Items between brackets.
4. The rules of types, and `respell`.
-/

namespace Docblock

open Word (source after Flush flush)

/-! ## Section 1: The right end of a type -/

mutual

/-- Is the word `callable`, without a signature, the last thing printed of a type? -/
def TypeExpr.endsInCallable : TypeExpr → Bool
  | .union members | .intersection members => TypeExpr.lastEndsInCallable members
  | .nullable inner => inner.endsInCallable
  | .callable params result =>
    (params.isEmpty && result.isNone) || TypeExpr.resultEndsInCallable result
  | _ => false

/-- The same question about the last of some types. -/
def TypeExpr.lastEndsInCallable : List TypeExpr → Bool
  | [] => false
  | t :: rest =>
    if rest.isEmpty then t.endsInCallable else TypeExpr.lastEndsInCallable rest

/-- The same question about the result of a callable. -/
def TypeExpr.resultEndsInCallable : Option TypeExpr → Bool
  | none => false
  | some ty => ty.endsInCallable

end

namespace TypeExpr

/-- The joints `ks` of a printed form, against those of the spelling it came from. -/
structure Carries (js ks : List Joint) (isOpen : Bool) : Prop where
  subset : ks ⊆ .word .lparen :: js
  lparen : .word .lparen ∈ ks ↔ isOpen = true

theorem Carries.cons {js ks : List Joint} {isOpen : Bool} (h : Carries js ks isOpen) {j : Joint}
    (hj : j ≠ .word .lparen) : Carries (j :: js) (j :: ks) isOpen where
  subset := by
    intro k hk
    have := h.subset
    grind
  lparen := by simp [h.lparen, hj.symm]

theorem Carries.not_mem {js ks : List Joint} {isOpen : Bool} (h : Carries js ks isOpen) {j : Joint}
    (hj : j ≠ .word .lparen) (hmem : j ∉ js) : j ∉ ks := by
  have := h.subset
  grind

theorem carries_self {js : List Joint} (h : .word .lparen ∉ js) : Carries js js false :=
  ⟨List.subset_cons_self _ _, by simp [h]⟩

/-! ## Section 2: Leaves -/

theorem text_of_kind {w : Word} (hw : Token.Forms w.kind w.text ∧ w.kind ≠ .blank) {k : Kind}
    (hk : w.kind = k) {x : Text} (hx : k.symbol? = some x) : w.text = x :=
  Token.eq_of_forms_symbol hw.1 (hk ▸ hx)

theorem breaks_cons {c : Char} {s : Text} (hc : Token.isBreak c = true) : Breaks (c :: s) := by
  simpa [Breaks] using hc

/-- The parts of a name are printed as they are spelled, without the gaps between them. -/
theorem respell_parts {parts : List Text} {ws : List Word} {js : List Joint}
    (h : SpelledParts parts ws js) (hws : Genuine ws) :
    SpelledParts parts (ws.map flush) js ∧
      Written (List.intercalate ['\\'] parts) ws (ws.map flush) := by
  -- induction on the parts, from the last one to the left
  induction h with
  | @last w hw =>
    rw [genuine_cons] at hws
    refine ⟨.last (w := w.flush) hw, ?_⟩
    rw [List.intercalate_singleton]
    exact .single hws.1 (by rw [hw]; rfl)
  | @cons w b parts ws js hw hb h ih =>
    rw [genuine_cons, genuine_cons] at hws
    obtain ⟨hword, hslash, hws⟩ := hws
    obtain ⟨hspelled, hwritten⟩ := ih hws
    refine ⟨.cons (w := w.flush) (b := b.flush) hw hb hspelled, ?_⟩
    have hb' : b.text = ['\\'] := text_of_kind hslash hb rfl
    -- the backslash and the parts behind it are written without gaps
    have hrest : Written ('\\' :: List.intercalate ['\\'] parts) (b :: ws) (b.flush :: ws.map flush) := by
      have := hwritten.cons_closed hslash (by rw [hb]; rfl)
      rwa [hb'] at this
    have hall := (Written.single hword (by rw [hw]; rfl)).append hrest (by simp)
      (breaks_cons (by decide))
    cases h with
    | last | cons =>
      rw [List.intercalate_cons_cons, List.append_assoc]
      exact hall

/-- So is a name, with the backslash in front if it is absolute. -/
theorem respell_name {n : Name} {ws : List Word} {js : List Joint} (h : SpelledName n ws js)
    (hws : Genuine ws) :
    SpelledName n (ws.map flush) js ∧ Written n.print ws (ws.map flush) := by
  cases h with
  | relative h =>
    obtain ⟨hspelled, hwritten⟩ := respell_parts h hws
    exact ⟨.relative hspelled, hwritten⟩
  | @absolute b parts ws js hb h =>
    rw [genuine_cons] at hws
    obtain ⟨hspelled, hwritten⟩ := respell_parts h hws.2
    refine ⟨.absolute (b := b.flush) hb hspelled, ?_⟩
    have := hwritten.cons_closed hws.1 (by rw [hb]; rfl)
    rwa [text_of_kind hws.1 hb rfl] at this

/-- A constant is printed as it is spelled: a name, an asterisk, or both without a gap. -/
theorem respell_constant {name : Text} {ws : List Word} {js : List Joint}
    (h : SpelledConstant name ws js) (hws : Genuine ws) :
    SpelledConstant name (ws.map flush) js ∧ Written name ws (ws.map flush) := by
  cases h with
  | @any a ha =>
    rw [genuine_cons] at hws
    refine ⟨.any (a := a.flush) ha, ?_⟩
    have := Written.single hws.1 (by rw [ha]; rfl)
    rwa [text_of_kind hws.1 ha rfl] at this
  | @exact w hw =>
    rw [genuine_cons] at hws
    exact ⟨.exact (w := w.flush) hw, .single hws.1 (by rw [hw]; rfl)⟩
  | @ending w a hw ha hgap =>
    rw [genuine_cons, genuine_cons] at hws
    refine ⟨.ending (w := w.flush) (a := a.flush) hw ha rfl, ?_⟩
    have hstar : Written ['*'] [a] [a.flush] := by
      have := Written.single hws.2.1 (by rw [ha]; rfl)
      rwa [text_of_kind hws.2.1 ha rfl] at this
    exact (Written.single hws.1 (by rw [hw]; rfl)).append hstar (by simp) (breaks_cons (by decide))

theorem dollar_of_var {w : Word} (hw : Token.Forms w.kind w.text) (hk : w.kind = .var) :
    w.text = '$' :: w.text.tail := by
  rw [hk] at hw
  generalize w.text = t at hw ⊢
  cases Token.shape_of_forms hw with
  | symbol h => cases h
  | var h => rfl

/-- A mark that may be there, such as `&` or `...`, is printed in front of what follows it exactly
when it is there. -/
theorem respell_mark {kind : Kind} {b : Bool} {ws : List Word} (h : Mark kind b ws)
    (hws : Genuine ws) {x : Text} (hx : kind.symbol? = some x)
    (hk : kind.isClosed = true) {t : Text} {old vs : List Word}
    (hvs : Written t old vs) :
    Mark kind b (ws.map flush) ∧
      Written ((if b then x else []) ++ t) (ws ++ old) (ws.map flush ++ vs) := by
  cases h with
  | absent => exact ⟨.absent, hvs⟩
  | @present w hw =>
    rw [genuine_cons] at hws
    refine ⟨.present (w := w.flush) hw, ?_⟩
    have := hvs.cons_closed hws.1 (by rwa [hw])
    rwa [text_of_kind hws.1 hw hx] at this

/-- A binder is printed as its marks and the variable, without gaps. -/
theorem respell_binder {byRef variadic : Bool} {name : Text} {ws : List Word}
    (h : SpelledBinder (byRef, variadic, name) ws) (hws : Genuine ws) :
    SpelledBinder (byRef, variadic, name) (ws.map flush) ∧
      Written ((if byRef then ['&'] else []) ++ ((if variadic then "...".toList else []) ++
        '$' :: name)) ws (ws.map flush) := by
  cases h with
  | @mk _ _ as es v ha he hv =>
    rw [genuine_append, genuine_append, genuine_cons] at hws
    obtain ⟨⟨has, hes⟩, hword, -⟩ := hws
    -- from the right to the left: the variable, the dots and the ampersand
    have hname : Written ('$' :: v.text.tail) [v] [v.flush] := by
      rw [← dollar_of_var hword.1 hv]
      exact .single hword (by rw [hv]; rfl)
    obtain ⟨he', hell⟩ := respell_mark he hes rfl rfl hname
    obtain ⟨ha', hamp⟩ := respell_mark ha has rfl rfl hell
    simp only [List.map_append, List.append_assoc, List.map_cons, List.map_nil]
    refine ⟨?_, hamp⟩
    rw [← List.append_assoc]
    exact .mk (v := v.flush) ha' he' hv

theorem SpelledBinder.ne_nil {b : Bool × Bool × Text} {ws : List Word} (h : SpelledBinder b ws) :
    ws ≠ [] := by
  cases h
  simp

/-- The gap in front of a binder may be any. -/
theorem SpelledBinder.after {b : Bool × Bool × Text} {ws : List Word} (h : SpelledBinder b ws)
    (gap : Text) : SpelledBinder b (Word.after gap ws) := by
  cases h with
  | @mk _ _ as es v ha he hv =>
    -- the gap belongs to the first word, whichever of the three that is
    cases ha with
    | absent =>
      cases he with
      | absent => exact .mk (v := { v with gap := gap }) .absent .absent hv
      | @present e he => exact .mk .absent (.present (w := { e with gap := gap }) he) hv
    | @present a ha => exact .mk (.present (w := { a with gap := gap }) ha) he hv

/-- A printed binder is drawn up, so it goes on with no type. -/
theorem clear_flush_binder {js : List Joint} (hjs : js ⊆ Joint.ofType) {b : Bool × Bool × Text}
    {ws : List Word} (h : SpelledBinder b ws) : Clear js (ws.map flush) := by
  cases h with
  | mk ha he hv =>
    -- it is again the first word that counts; an ampersand is no joint when a mark or a variable
    -- follows it
    cases ha with
    | absent =>
      cases he with
      | absent => exact clear_cons hjs _ (by simp [hv, Joint.ofType]) (by simp [hv])
      | present he => exact clear_cons hjs _ (by simp [he, Joint.ofType]) (by simp [he])
    | present ha =>
      cases he with
      | absent => exact clear_amp_cons hjs _ ha (by simp [hv, Kind.startsType]) rfl
      | present he => exact clear_amp_cons hjs _ ha (by simp [he, Kind.startsType]) rfl

/-! ## Section 3: Items between brackets -/

/-- The printed form of an item spells it, and can be set off by a blank. -/
structure Respells {α : Type} (G : Grammar α) (print : α → Text) : Prop where
  written : ∀ {x : α} {ws : List Word} {js : List Joint}, G x ws js → Genuine ws →
    ∃ vs ks, G x vs ks ∧ Written (print x) ws vs
  after : ∀ {x : α} {ws : List Word} {js : List Joint}, G x ws js → ∀ gap : Text,
    G x (Word.after gap ws) js
  ne_nil : ∀ {x : α} {ws : List Word} {js : List Joint}, G x ws js → ws ≠ []

section Items

variable {α : Type} {Item : Grammar α} {print : α → Text} {close : Kind}

theorem SpelledItems.ne_nil {xs : List α} {ws : List Word} (h : SpelledItems Item close xs ws) :
    ws ≠ [] := by
  cases h <;> simp

/-- The gap in front of a list of items may be any, because it is the gap of the first item. -/
theorem SpelledItems.after (hitem : Respells Item print) {xs : List α} {ws : List Word}
    (h : SpelledItems Item close xs ws) (gap : Text) :
    SpelledItems Item close xs (Word.after gap ws) := by
  cases h with
  | last h hc =>
    rw [Word.after_append (hitem.ne_nil h)]
    exact .last (hitem.after h gap) hc
  | trailing h hm hc =>
    rw [Word.after_append (hitem.ne_nil h)]
    exact .trailing (hitem.after h gap) hm hc
  | cons h hm hxs =>
    rw [Word.after_append (hitem.ne_nil h)]
    exact .cons (hitem.after h gap) hm hxs

/-- Items are printed with a comma and a blank between them, and none before the end. -/
theorem respell_items (hitem : Respells Item print) {c : Char} (hclose : close.symbol? = some [c])
    (hends : close.endsList = true) (hc : Token.isBreak c = true) {xs : List α} {ws : List Word}
    (h : SpelledItems Item close xs ws) (hws : Genuine ws) :
    ∃ vs, SpelledItems Item close xs vs ∧ Ended ws vs ∧
      Written (List.intercalate ", ".toList (xs.map print) ++ [c]) ws vs := by
  have hend {w : Word} (hw : w.kind = close) (hword : Token.Forms w.kind w.text ∧ w.kind ≠ .blank) :
      Written [c] [w] [w.flush] := by
    have := Written.single hword (by rw [hw]; exact Kind.isBroken_of_endsList hends)
    rwa [text_of_kind hword hw hclose] at this
  -- one case per rule of the list: the last item, one with a comma behind it, and one before others
  induction h with
  | @last x ws js e h he =>
    rw [genuine_append, genuine_cons] at hws
    obtain ⟨hws, hword, -⟩ := hws
    obtain ⟨vs, ks, hvs, hwritten⟩ := hitem.written h hws
    refine ⟨vs ++ [e.flush], .last hvs he, hwritten.ended_append ?_, ?_⟩
    · rw [he]
      exact Kind.ne_colon_of_endsList hends
    · rw [List.map_cons, List.map_nil, List.intercalate_singleton]
      exact hwritten.append (hend he hword) (hitem.ne_nil hvs) (breaks_cons hc)
  | @trailing x ws js m e h hm he =>
    rw [genuine_append, genuine_cons, genuine_cons] at hws
    obtain ⟨hws, -, hword, -⟩ := hws
    obtain ⟨vs, ks, hvs, hwritten⟩ := hitem.written h hws
    have hends' : e.kind.endsList = true := he ▸ hends
    -- the comma is dropped
    refine ⟨vs ++ [e.flush], .last hvs he, hwritten.ended_append_end hm hends', ?_⟩
    rw [List.map_cons, List.map_nil, List.intercalate_singleton]
    exact hwritten.append_end (hitem.ne_nil hvs) hm hends' (hend he hword) (breaks_cons hc)
  | @cons x xs ws us js m h hm hxs ih =>
    rw [genuine_append, genuine_cons] at hws
    obtain ⟨hws, hword, hus⟩ := hws
    obtain ⟨vs, ks, hvs, hwritten⟩ := hitem.written h hws
    obtain ⟨vs', hvs', hended, hwritten'⟩ := ih hus
    refine ⟨vs ++ m.flush :: Word.after [' '] vs', .cons hvs hm (hvs'.after hitem _), ?_, ?_⟩
    · exact hwritten.ended_append_after hended (by simp [hm])
    have hcomma := hwritten'.cons_after hvs'.ne_nil hword (by rw [hm]; rfl) (by simp [hm])
    rw [text_of_kind hword hm rfl] at hcomma
    have hall := hwritten.append hcomma (hitem.ne_nil hvs) (breaks_cons (by decide))
    cases hxs with
    | last | trailing | cons =>
      rw [List.map_cons, List.map_cons, List.intercalate_cons_cons]
      simpa using hall

end Items

theorem printAll_eq_map (tys : List TypeExpr) : printAll tys = tys.map print := by
  induction tys with
  | nil => rfl
  | cons ty tys ih => rw [printAll, ih, List.map_cons]

theorem printEntries_eq_map (es : List (Entry TypeExpr)) :
    printEntries es = es.map printEntry := by
  induction es with
  | nil => rfl
  | cons e es ih => rw [printEntries, ih, List.map_cons]

theorem printParams_eq_map (ps : List (Param TypeExpr)) : printParams ps = ps.map printParam := by
  induction ps with
  | nil => rfl
  | cons p ps ih => rw [printParams, ih, List.map_cons]

/-! ## Section 4: The rules of types -/

/-- The printed form of a type spells it, with the joints that its end calls for. -/
def Reprints (G : Grammar TypeExpr) : Prop :=
  ∀ ⦃ty : TypeExpr⦄ ⦃ws : List Word⦄ ⦃js : List Joint⦄, G ty ws js → Genuine ws →
    ∃ vs ks, G ty vs ks ∧ Carries js ks ty.endsInCallable ∧ Written ty.print ws vs

section Inner

variable {Inner : Grammar TypeExpr}

theorem respells_inner (hinner : Reprints Inner) (horderly : Orderly Inner) :
    Respells Inner print where
  written h hws := by
    obtain ⟨vs, ks, hvs, -, hwritten⟩ := hinner h hws
    exact ⟨vs, ks, hvs, hwritten⟩
  after h gap := horderly.after h gap
  ne_nil h := ne_nil_of_starts (horderly.starts h)

/-- So are the entries of a shape: a key, its mark, the colon and a blank before the type. -/
theorem respells_entry (hinner : Reprints Inner) (horderly : Orderly Inner) :
    Respells (SpelledEntry Inner) printEntry where
  written h hws := by
    cases h with
    | @mk k c optional qs ws js ty hk hq hc hty =>
      rw [genuine_cons, genuine_append, genuine_cons] at hws
      obtain ⟨hkey, hqs, hcolon, hws⟩ := hws
      obtain ⟨vs, ks, hvs, -, hwritten⟩ := hinner hty hws
      have hne := ne_nil_of_starts (horderly.starts hvs)
      obtain ⟨hq', hmark⟩ := respell_mark hq hqs rfl rfl Written.nil
      refine ⟨k.flush :: (qs.map flush ++ c.flush :: Word.after [' '] vs), ks,
        .mk (k := k.flush) (c := c.flush) hk hq' hc (horderly.after hvs _), ?_⟩
      -- what follows the key does not go on with it
      have hbreak : Breaks ((if optional then ['?'] else []) ++ []) := by
        cases optional
        · simp [Breaks]
        · exact breaks_cons (by decide)
      have hbroken : k.kind.isBroken = true := by
        revert hk
        cases k.kind <;> decide
      have hkey := (Written.single hkey hbroken).append hmark (by simp) hbreak
      -- the key and its mark end in the same word as before, with the colon right behind it
      have hended : Ended ([k] ++ (qs ++ [])) ([k.flush] ++ (qs.map flush ++ [])) := by
        simpa using ended_flush (k :: qs)
      have hall := hkey.append_colon hended (by simp) hcolon hc hwritten hne
      simpa [printEntry, Entry.printWith] using hall
  after h gap := by
    cases h with
    | @mk k _ _ _ _ _ _ hk hq hc hty => exact .mk (k := { k with gap := gap }) hk hq hc hty
  ne_nil h := by
    cases h
    simp

/-- So are the parameters of a callable, in each of their three forms. -/
theorem respells_param (hinner : Reprints Inner) (horderly : Orderly Inner) :
    Respells (SpelledParam Inner) printParam where
  written h hws := by
    cases h with
    | bare hty =>
      obtain ⟨vs, ks, hvs, -, hwritten⟩ := hinner hty hws
      refine ⟨vs, _, .bare hvs, ?_⟩
      simpa [printParam, Param.printWith] using hwritten
    | named hty hb hclear =>
      rw [genuine_append] at hws
      obtain ⟨vs, ks, hvs, -, hwritten⟩ := hinner hty hws.1
      obtain ⟨hb', hbinder⟩ := respell_binder hb hws.2
      -- the binder still does not go on with the type, however the type was spelled
      have hclear' := clear_flush_binder (horderly.joints hvs) hb
      refine ⟨_, _, .named hvs (hb'.after [' ']) (hclear'.after [' ']), ?_⟩
      have hall := hwritten.append_after hbinder (ne_nil_of_starts (horderly.starts hvs)) hb'.ne_nil
      simpa [printParam, Param.printWith, Param.binder] using hall
    | @default ty ws bs js byRef variadic name e d hty hb hclear he hd =>
      rw [genuine_append, genuine_append, genuine_cons, genuine_cons] at hws
      obtain ⟨⟨hws, hbs⟩, hequals, hvalue, -⟩ := hws
      obtain ⟨vs, ks, hvs, -, hwritten⟩ := hinner hty hws
      obtain ⟨hb', hbinder⟩ := respell_binder hb hbs
      have hclear' := clear_flush_binder (horderly.joints hvs) hb
      have hbroken : d.kind.isBroken = true := by
        revert hd
        cases d.kind <;> decide
      -- the default stands behind an equals sign, with one blank on each side of it
      have hdefault := (Written.single hvalue hbroken).cons_after (by simp) hequals
        (by rw [he]; rfl) (by simp [he])
      rw [text_of_kind hequals he rfl] at hdefault
      refine ⟨_, _, .default (e := { e with gap := [' '] }) (d := { d with gap := [' '] }) hvs
        (hb'.after [' ']) (hclear'.after [' ']) he hd, ?_⟩
      have hne := ne_nil_of_starts (horderly.starts hvs)
      have hall := (hwritten.append_after hbinder hne hb'.ne_nil).append_after hdefault
        (by simp [hne]) (by simp)
      simpa [printParam, Param.printWith, Param.binder] using hall
  after h gap := by
    cases h with
    | bare hty => exact .bare (horderly.after hty gap)
    | named hty hb hclear =>
      rw [Word.after_append (ne_nil_of_starts (horderly.starts hty))]
      exact .named (horderly.after hty gap) hb hclear
    | default hty hb hclear he hd =>
      rw [List.append_assoc, Word.after_append (ne_nil_of_starts (horderly.starts hty)),
        ← List.append_assoc]
      exact .default (horderly.after hty gap) hb hclear he hd
  ne_nil h := by
    cases h with
    | bare hty => exact ne_nil_of_starts (horderly.starts hty)
    | named hty _ _ | default hty _ _ _ _ =>
      obtain ⟨w, vs, rfl, -⟩ := horderly.starts hty
      simp

theorem print_callable_some (ps : List (Param TypeExpr)) (r : TypeExpr) :
    (callable ps (some r)).print =
      "callable".toList ++ ('(' :: List.intercalate ", ".toList (printParams ps) ++
        ')' :: ':' :: ' ' :: r.print) := by
  cases ps <;> rfl

/-- The parameters are printed up to their closing parenthesis, which ends the same word as before.
-/
theorem respell_signature (hinner : Reprints Inner) (horderly : Orderly Inner)
    {ps : List (Param TypeExpr)} {ws : List Word} (h : SpelledSignature Inner ps ws)
    (hws : Genuine ws) :
    ∃ vs, SpelledSignature Inner ps vs ∧ Ended ws vs ∧
      Written (List.intercalate ", ".toList (printParams ps) ++ [')']) ws vs := by
  cases h with
  | @empty r hr =>
    rw [genuine_cons] at hws
    refine ⟨[r.flush], .empty hr, ended_flush [r], ?_⟩
    have := Written.single hws.1 (by rw [hr]; rfl)
    rwa [text_of_kind hws.1 hr rfl] at this
  | params hps =>
    obtain ⟨vs, hvs, hended, hwritten⟩ := respell_items (respells_param hinner horderly) rfl rfl
      (show Token.isBreak ')' = true by decide) hps hws
    rw [printParams_eq_map]
    exact ⟨vs, .params hvs, hended, hwritten⟩

/-- A signature with its opening parenthesis. -/
theorem respell_parameters (hinner : Reprints Inner) (horderly : Orderly Inner) {l : Word}
    (hl : l.kind = .lparen) {ps : List (Param TypeExpr)} {ws : List Word}
    (h : SpelledSignature Inner ps ws) (hws : Genuine (l :: ws)) :
    ∃ vs, SpelledSignature Inner ps vs ∧ Ended ws vs ∧
      Written ('(' :: List.intercalate ", ".toList (printParams ps) ++ [')']) (l :: ws)
        (l.flush :: vs) := by
  rw [genuine_cons] at hws
  obtain ⟨vs, hvs, hended, hwritten⟩ := respell_signature hinner horderly h hws.2
  refine ⟨vs, hvs, hended, ?_⟩
  have := hwritten.cons_closed hws.1 (by rw [hl]; rfl)
  rwa [text_of_kind hws.1 hl rfl] at this

/-- A callable with its keyword: nothing follows that without parameters and result. -/
theorem respell_callable (hinner : Reprints Inner) (horderly : Orderly Inner) {w : Word}
    (hw : w.kind = .callable) {ty : TypeExpr} {ws : List Word} {js : List Joint}
    (h : SpelledCallable Inner ty ws js) (hws : Genuine (w :: ws)) :
    ∃ vs ks, SpelledCallable Inner ty vs ks ∧ Carries js ks ty.endsInCallable ∧
      Written ty.print (w :: ws) (w.flush :: vs) := by
  have hbare {js : List Joint} : Carries js [.word .lparen] true :=
    ⟨by simp, by simp⟩
  rw [genuine_cons] at hws
  obtain ⟨hword, hws⟩ := hws
  have hkeyword := Written.single hword (by rw [hw]; rfl)
  rw [text_of_kind hword hw rfl] at hkeyword
  cases h with
  | bare => exact ⟨[], _, .bare, hbare, hkeyword⟩
  | @plain l ps ws hl hps =>
    cases ps with
    | nil =>
      -- the parentheses are dropped
      refine ⟨[], _, .bare, hbare, ?_⟩
      cases hps with
      | empty hr => exact hkeyword.drop_parens hw hl hr
      | params hps => cases hps
    | cons p ps =>
      obtain ⟨vs, hvs, -, hwritten⟩ := respell_parameters hinner horderly hl hps hws
      refine ⟨l.flush :: vs, [.word .colon], .plain (l := l.flush) hl hvs, ?_, ?_⟩
      · exact carries_self (by simp)
      · exact hkeyword.append hwritten (by simp) (breaks_cons (by decide))
  | @result l c ps r ws us js hl hps hc hr =>
    obtain ⟨hws, hus⟩ := genuine_append.mp (show Genuine ((l :: ws) ++ c :: us) from hws)
    obtain ⟨hcolon, hus⟩ := genuine_cons.mp hus
    obtain ⟨vs, hvs, hended, hwritten⟩ := respell_parameters hinner horderly hl hps hws
    obtain ⟨vs', ks, hvs', hcarries, hresult⟩ := hinner hr hus
    have hne := ne_nil_of_starts (horderly.starts hvs')
    have hfront := hkeyword.append hwritten (by simp) (breaks_cons (by decide))
    have hended' : Ended ([w] ++ l :: ws) ([w.flush] ++ l.flush :: vs) :=
      fun a b hab => ((hended hab).keep l.core).keep w.core
    have hall := hfront.append_colon hended' (by simp) hcolon hc hresult hne
    refine ⟨l.flush :: (vs ++ c.flush :: Word.after [' '] vs'), ks,
      .result (l := l.flush) (c := c.flush) hl hvs hc (horderly.after hvs' [' ']), ?_, ?_⟩
    · simpa [endsInCallable, resultEndsInCallable] using hcarries
    · rw [print_callable_some]
      simpa using hall

/-- The braces of a shape are printed right behind its word, and not at all if there are none. -/
theorem respell_entries (hinner : Reprints Inner) (horderly : Orderly Inner)
    {es : List (Entry TypeExpr)} {ws : List Word} {js : List Joint}
    (h : SpelledEntries Inner es ws js) (hws : Genuine ws) :
    ∃ vs text, SpelledEntries Inner es vs js ∧ .word .lparen ∉ js ∧ Breaks text ∧
      (∀ k : Container, (shape k es).print = k.print ++ text) ∧ Written text ws vs := by
  cases h with
  | none =>
    exact ⟨[], [], .none, by simp, by simp [Breaks], fun k => rfl, .nil⟩
  | @some l es ws hl hes =>
    rw [genuine_cons] at hws
    obtain ⟨vs, hvs, -, hwritten⟩ := respell_items (respells_entry hinner horderly) rfl rfl
      (show Token.isBreak '\x7d' = true by decide) hes hws.2
    have hall := hwritten.cons_closed hws.1 (by rw [hl]; rfl)
    rw [text_of_kind (x := ['\x7b']) hws.1 hl rfl] at hall
    refine ⟨l.flush :: vs, _, .some (l := l.flush) hl hvs, by simp, ?_, ?_, hall⟩
    · exact breaks_cons (by decide)
    · intro k
      rw [← printEntries_eq_map]
      cases hes with
      | last | trailing | cons => rfl

/-- The word a type begins with is printed as spelled, with what belongs to it. -/
theorem respell_head (hinner : Reprints Inner) (horderly : Orderly Inner) {ty : TypeExpr}
    {allowed : Bool} {ws : List Word} {js : List Joint}
    (h : SpelledHead Inner (ty, allowed) ws js) (hws : Genuine ws) :
    ∃ vs ks, SpelledHead Inner (ty, allowed) vs ks ∧ Carries js ks ty.endsInCallable ∧
      Written ty.print ws vs := by
  cases h with
  | @array w es ws js hw hes =>
    rw [genuine_cons] at hws
    -- the word, and directly behind it the braces if there are any
    obtain ⟨vs, text, hvs, hjs, hbreak, hprint, hwritten⟩ := respell_entries hinner horderly hes hws.2
    have hall := (Written.single hws.1 (by rw [hw]; rfl)).append hwritten (by simp) hbreak
    rw [text_of_kind hws.1 hw rfl] at hall
    refine ⟨w.flush :: vs, js, .array (w := w.flush) hw hvs, carries_self hjs, ?_⟩
    rw [hprint]
    exact hall
  | @object w es ws js hw hes =>
    rw [genuine_cons] at hws
    obtain ⟨vs, text, hvs, hjs, hbreak, hprint, hwritten⟩ := respell_entries hinner horderly hes hws.2
    have hall := (Written.single hws.1 (by rw [hw]; rfl)).append hwritten (by simp) hbreak
    rw [text_of_kind hws.1 hw rfl] at hall
    refine ⟨w.flush :: vs, js, .object (w := w.flush) hw hvs, carries_self hjs, ?_⟩
    rw [hprint]
    exact hall
  -- the one form whose joints may gain a parenthesis
  | @callable w ty ws js hw hty =>
    obtain ⟨vs, ks, hvs, hcarries, hwritten⟩ := respell_callable hinner horderly hw hty hws
    exact ⟨w.flush :: vs, ks, .callable (w := w.flush) hw hvs, hcarries, hwritten⟩
  | @static w hw =>
    rw [genuine_cons] at hws
    refine ⟨[w.flush], [], .static (w := w.flush) hw, carries_self (by simp), ?_⟩
    have hall := Written.single hws.1 (by rw [hw]; rfl)
    rwa [text_of_kind hws.1 hw rfl] at hall
  | named hn =>
    obtain ⟨hspelled, hwritten⟩ := respell_name hn hws
    exact ⟨_, js, .named hspelled, carries_self (by simp [hn.joints]), hwritten⟩

/-- So is such a word with its arguments in angle brackets. -/
theorem respell_applied (hinner : Reprints Inner) (horderly : Orderly Inner) :
    Reprints (SpelledApplied Inner) := by
  intro ty ws js h hws
  cases h with
  | closed hty =>
    obtain ⟨vs, ks, hvs, hcarries, hwritten⟩ := respell_head hinner horderly hty hws
    exact ⟨vs, ks, .closed hvs, hcarries, hwritten⟩
  | plain hty =>
    obtain ⟨vs, ks, hvs, hcarries, hwritten⟩ := respell_head hinner horderly hty hws
    exact ⟨vs, _, .plain hvs, hcarries.cons (by simp), hwritten⟩
  | @generic base args ws us js l hty hl hargs =>
    rw [genuine_append, genuine_cons] at hws
    obtain ⟨hws, hword, hus⟩ := hws
    obtain ⟨vs, ks, hvs, -, hwritten⟩ := respell_head hinner horderly hty hws
    obtain ⟨vs', hvs', -, hwritten'⟩ := respell_items (respells_inner hinner horderly) rfl rfl
      (show Token.isBreak '>' = true by decide) hargs hus
    have htail := hwritten'.cons_closed hword (by rw [hl]; rfl)
    rw [text_of_kind hword hl rfl] at htail
    have hall := hwritten.append htail (ne_nil_of_starts hvs.starts) (breaks_cons (by decide))
    refine ⟨_, [], .generic (l := l.flush) hvs hl hvs', carries_self (by simp), ?_⟩
    -- this is how the arguments are printed
    have hprint : (generic base args).print =
        base.print ++ ('<' :: (List.intercalate ", ".toList (args.map print) ++ ['>'])) := by
      rw [← printAll_eq_map]
      exact List.append_assoc _ _ _
    rw [hprint]
    exact hall

/-- So is it with a constant of the class behind it. -/
theorem respell_basic (hinner : Reprints Inner) (horderly : Orderly Inner) (isNullable : Bool) :
    Reprints (SpelledBasic Inner isNullable) := by
  intro ty ws js h hws
  cases h with
  | plain hty =>
    obtain ⟨vs, ks, hvs, hcarries, hwritten⟩ := respell_applied hinner horderly hty hws
    exact ⟨vs, _, .plain hvs, hcarries.cons (by simp), hwritten⟩
  | @constant n c name ws us _ _ hn hnull hc hname =>
    rw [genuine_append, genuine_cons] at hws
    obtain ⟨hws, hword, hus⟩ := hws
    obtain ⟨vs, ks, hvs, -, hwritten⟩ := respell_applied hinner horderly hn hws
    obtain ⟨hspelled, hwritten'⟩ := respell_constant hname hus
    have htail := hwritten'.cons_closed hword (by rw [hc]; rfl)
    rw [text_of_kind hword hc rfl] at htail
    have hall := hwritten.append htail (ne_nil_of_starts hvs.starts) (breaks_cons (by decide))
    -- no constant goes on with a parenthesis, so the type does not end in a callable
    have hopen : .word .lparen ∉ js := by
      cases hname <;> simp
    refine ⟨_, js, .constant (c := c.flush) hvs hnull hc hspelled, carries_self hopen, ?_⟩
    rw [← List.append_assoc] at hall
    exact hall

/-- So are parentheses, literals, `$this` and a type with a question mark. -/
theorem respell_primary (hinner : Reprints Inner) (horderly : Orderly Inner) :
    Reprints (SpelledPrimary Inner) := by
  intro ty ws js h hws
  cases h with
  | @paren l r ty ws js hl hty hr =>
    rw [genuine_cons, genuine_append, genuine_cons] at hws
    obtain ⟨hleft, hws, hright, -⟩ := hws
    obtain ⟨vs, ks, hvs, -, hwritten⟩ := hinner hty hws
    have hclose := Written.single hright (by rw [hr]; rfl)
    rw [text_of_kind hright hr rfl] at hclose
    -- first the type with its closing parenthesis, then the opening one in front
    have hinside := hwritten.append hclose (ne_nil_of_starts (horderly.starts hvs))
      (breaks_cons (by decide))
    have hall := hinside.cons_closed hleft (by rw [hl]; rfl)
    rw [text_of_kind hleft hl rfl] at hall
    exact ⟨_, [], .paren (l := l.flush) (r := r.flush) hl hvs hr, carries_self (by simp), hall⟩
  | @this w hw =>
    rw [genuine_cons] at hws
    have hall := Written.single hws.1 (by rw [hw]; rfl)
    rw [text_of_kind hws.1 hw rfl] at hall
    exact ⟨_, [], .this (w := w.flush) hw, carries_self (by simp), hall⟩
  | @literal w hw =>
    rw [genuine_cons] at hws
    have hbroken : w.kind.isBroken = true := by
      rcases hw with hw | hw <;> rw [hw] <;> rfl
    exact ⟨_, [], .literal (w := w.flush) hw, carries_self (by simp), .single hws.1 hbroken⟩
  | @nullable q ty ws js hq hty =>
    rw [genuine_cons] at hws
    obtain ⟨vs, ks, hvs, hcarries, hwritten⟩ := respell_basic hinner horderly true hty hws.2
    have hall := hwritten.cons_closed hws.1 (by rw [hq]; rfl)
    rw [text_of_kind hws.1 hq rfl] at hall
    exact ⟨_, ks, .nullable (q := q.flush) hq hvs, hcarries, hall⟩
  | basic hty =>
    obtain ⟨vs, ks, hvs, hcarries, hwritten⟩ := respell_basic hinner horderly false hty hws
    exact ⟨vs, ks, .basic hvs, hcarries, hwritten⟩

/-- So are the brackets of an array behind a type, however many there are. -/
theorem respell_suffixed (hinner : Reprints Inner) (horderly : Orderly Inner) :
    Reprints (SpelledSuffixed Inner) := by
  intro ty ws js h hws
  induction h with
  | plain hty =>
    obtain ⟨vs, ks, hvs, hcarries, hwritten⟩ := respell_primary hinner horderly hty hws
    exact ⟨vs, ks, .plain hvs, hcarries, hwritten⟩
  | @array ty l r ws js hty hjs hl hr ih =>
    rw [genuine_append, genuine_cons, genuine_cons] at hws
    obtain ⟨hws, hleft, hright, -⟩ := hws
    obtain ⟨vs, ks, hvs, hcarries, hwritten⟩ := ih hws
    have hclose := Written.single hright (by rw [hr]; rfl)
    rw [text_of_kind hright hr rfl] at hclose
    have hbrackets := hclose.cons_closed hleft (by rw [hl]; rfl)
    rw [text_of_kind hleft hl rfl] at hbrackets
    have hall := hwritten.append hbrackets (ne_nil_of_starts hvs.starts) (breaks_cons (by decide))
    exact ⟨_, [], .array (l := l.flush) (r := r.flush) hvs (hcarries.not_mem (by simp) hjs) hl hr,
      carries_self (by simp), hall⟩

theorem respell_atomic (hinner : Reprints Inner) (horderly : Orderly Inner) :
    Reprints (SpelledAtomic Inner) := by
  intro ty ws js h hws
  cases h with
  | mk hty =>
    obtain ⟨vs, ks, hvs, hcarries, hwritten⟩ := respell_suffixed hinner horderly hty hws
    exact ⟨vs, _, .mk hvs, hcarries.cons (by simp), hwritten⟩

/-- The further members of a type, each with its operator in front. -/
theorem respell_members (hinner : Reprints Inner) (horderly : Orderly Inner) {operator : Kind}
    {joint : Joint} {o : Char} (hsymbol : operator.symbol? = some [o])
    (hclosed : operator.isClosed = true) (hbreak : Token.isBreak o = true)
    (hjoint : joint ≠ .word .lparen) {tys : List TypeExpr} {ws : List Word} {js : List Joint}
    (h : SpelledMembers Inner operator joint tys ws js) (hws : Genuine ws) :
    ∃ vs ks, SpelledMembers Inner operator joint tys vs ks ∧
      Carries js ks (lastEndsInCallable tys) ∧
      Written (tys.flatMap fun ty => o :: ty.print) ws vs := by
  -- induction on the members, each of them behind its operator
  induction h with
  | @last w ty ws js ho hty =>
    rw [genuine_cons] at hws
    obtain ⟨vs, ks, hvs, hcarries, hwritten⟩ := respell_atomic hinner horderly hty hws.2
    have hall := hwritten.cons_closed hws.1 (by rwa [ho])
    rw [text_of_kind hws.1 ho hsymbol] at hall
    refine ⟨_, _, .last (o := w.flush) ho hvs, hcarries.cons hjoint, ?_⟩
    simpa using hall
  | @cons w ty tys ws us js ks ho hty hjs htys ih =>
    rw [genuine_cons, genuine_append] at hws
    obtain ⟨hword, hws, hus⟩ := hws
    obtain ⟨vs, ls, hvs, hcarries, hwritten⟩ := respell_atomic hinner horderly hty hws
    obtain ⟨vs', ls', hvs', hcarries', hwritten'⟩ := ih hus
    -- the other members begin with the operator, which breaks any word off
    have hothers : Breaks (tys.flatMap fun ty => o :: ty.print) := by
      cases htys <;> exact breaks_cons hbreak
    have hboth := hwritten.append hwritten' (ne_nil_of_starts hvs.starts) hothers
    have hall := hboth.cons_closed hword (by rwa [ho])
    rw [text_of_kind hword ho hsymbol] at hall
    refine ⟨_, _, .cons (o := w.flush) ho hvs (hcarries.not_mem hjoint hjs) hvs', ?_, ?_⟩
    · -- whether the type ends in a callable is decided by its last member
      have hsome : tys.isEmpty = false := by
        cases htys <;> rfl
      rw [lastEndsInCallable, hsome]
      exact hcarries'
    · simpa using hall

theorem intercalate_cons_eq {o : Char} (x : Text) (tys : List TypeExpr) :
    List.intercalate [o] (x :: tys.map print) = x ++ tys.flatMap fun ty => o :: ty.print := by
  induction tys generalizing x with
  | nil => simp
  | cons ty tys ih => rw [List.map_cons, List.intercalate_cons_cons, ih]; simp

/-- A type and its further members. -/
theorem respell_chain (hinner : Reprints Inner) (horderly : Orderly Inner) {operator : Kind}
    {joint : Joint} {o : Char} (hsymbol : operator.symbol? = some [o])
    (hclosed : operator.isClosed = true) (hbreak : Token.isBreak o = true)
    (hjoint : joint ≠ .word .lparen) {ty : TypeExpr} {tys : List TypeExpr} {ws us : List Word}
    {js ks : List Joint} (hty : SpelledAtomic Inner ty ws js) (hjs : joint ∉ js)
    (htys : SpelledMembers Inner operator joint tys us ks) (hws : Genuine (ws ++ us)) :
    ∃ vs vs' ls ls', SpelledAtomic Inner ty vs ls ∧ joint ∉ ls ∧
      SpelledMembers Inner operator joint tys vs' ls' ∧
      Carries ks ls' (lastEndsInCallable (ty :: tys)) ∧
      Written (List.intercalate [o] (printAll (ty :: tys))) (ws ++ us) (vs ++ vs') := by
  rw [genuine_append] at hws
  obtain ⟨vs, ls, hvs, hcarries, hwritten⟩ := respell_atomic hinner horderly hty hws.1
  obtain ⟨vs', ls', hvs', hcarries', hwritten'⟩ :=
    respell_members hinner horderly hsymbol hclosed hbreak hjoint htys hws.2
  refine ⟨vs, vs', ls, ls', hvs, hcarries.not_mem hjoint hjs, hvs', ?_, ?_⟩
  · have hsome : tys.isEmpty = false := by
      cases htys <;> rfl
    rw [lastEndsInCallable, hsome]
    exact hcarries'
  · have hothers : Breaks (tys.flatMap fun ty => o :: ty.print) := by
      cases htys <;> exact breaks_cons hbreak
    rw [printAll_eq_map, List.map_cons, intercalate_cons_eq]
    exact hwritten.append hwritten' (ne_nil_of_starts hvs.starts) hothers

/-- A type is printed as spelled when the types inside it are. -/
theorem reprints_compound (hinner : Reprints Inner) (horderly : Orderly Inner) :
    Reprints (SpelledCompound Inner) := by
  intro ty ws js h hws
  cases h with
  | single hty =>
    obtain ⟨vs, ks, hvs, hcarries, hwritten⟩ := respell_atomic hinner horderly hty hws
    exact ⟨vs, _, .single hvs, (hcarries.cons (by simp)).cons (by simp), hwritten⟩
  | union hty hjs htys =>
    obtain ⟨vs, vs', ls, ls', hvs, hls, hvs', hcarries, hwritten⟩ :=
      respell_chain hinner horderly rfl rfl (show Token.isBreak '|' = true by decide)
        (by simp) hty hjs htys hws
    exact ⟨vs ++ vs', ls', .union hvs hls hvs', hcarries, hwritten⟩
  | intersection hty hjs htys =>
    obtain ⟨vs, vs', ls, ls', hvs, hls, hvs', hcarries, hwritten⟩ :=
      respell_chain hinner horderly rfl rfl (show Token.isBreak '&' = true by decide)
        (by simp) hty hjs htys hws
    exact ⟨vs ++ vs', ls', .intersection hvs hls hvs', hcarries, hwritten⟩

end Inner

theorem reprints_spelled (depth : Nat) : Reprints (Spelled depth) := by
  induction depth with
  | zero => intro ty ws js h; exact h.elim
  | succ depth ih => exact reprints_compound ih (orderly_spelled depth)

end TypeExpr

end Docblock
