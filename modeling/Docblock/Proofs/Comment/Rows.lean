import Docblock.Comment.Printer
import Docblock.Proofs.Align
import Docblock.Proofs.Comment.Fields

/-!
# Printed fields are spellings

The row of a structured tag has its keyword and its fields as pieces, and last the description.
However the pieces are set apart, they spell the same fields.

As for types, what may follow the printed fields is what may follow the fields they came from,
except that `callable()` is printed as `callable`: `Tag.endsInCallable` tells for which tags a
parenthesis at the front of the description is then taken for a signature.
-/

namespace Docblock

open Row (Spread)
open Text (Blanks)
open TypeExpr
open Word (source after Flush flush)

/-! ## Section 1: Pieces of a row -/

section Pieces

variable {p q y : Text} {old old' us us' : List Word}

/-- A typed piece stands in its row as the words it was printed from. -/
theorem exists_words_of_spread (h : Written p old us) (hne : us ≠ []) (hy : Spread [p] y) :
    ∃ b, source (after b us) = y ∧ Phrase (after b us) ∧ Breaks y ∧
      ∀ w ∈ after b us, w.kind.isTypeWord = true := by
  cases hy with
  | @cons _ b _ _ hb hbne hy =>
    cases hy
    refine ⟨b, ?_, h.phrase.after hb, ?_, Written.typed_after h.typed⟩
    · rw [Word.source_after h.flush hne, h.source, List.append_nil]
    · -- a blank stands before the piece
      obtain ⟨c, b, rfl⟩ := List.exists_cons_of_ne_nil hbne
      exact breaks_cons (Token.isBreak_of_isBlank (hb c List.mem_cons_self))

/-- So do two typed pieces, one behind the other. -/
theorem exists_words_of_spread_pair (h : Written p old us) (hne : us ≠ []) (h' : Written q old' us')
    (hne' : us' ≠ []) (hy : Spread [p, q] y) :
    ∃ b b', source (after b us ++ after b' us') = y ∧ Phrase (after b us ++ after b' us') ∧
      ∀ w ∈ after b us ++ after b' us', w.kind.isTypeWord = true := by
  obtain ⟨y₁, y₂, rfl, hy₁, hy₂⟩ := Row.spread_append_iff.mp (show Spread ([p] ++ [q]) y from hy)
  obtain ⟨b, hs, hphrase, -, htyped⟩ := exists_words_of_spread h hne hy₁
  obtain ⟨b', hs', hphrase', hbreaks, htyped'⟩ := exists_words_of_spread h' hne' hy₂
  refine ⟨b, b', ?_, ?_, List.forall_mem_append.mpr ⟨htyped, htyped'⟩⟩
  · rw [Word.source_append, hs, hs']
  · exact hphrase.append hphrase' (by rwa [hs'])

end Pieces

theorem Row.joinTail_singleton (desc : Text) : joinTail [desc] = desc := by
  cases desc with
  | nil => rfl
  | cons c desc => exact List.intercalate_singleton

/-! ## Section 2: Methods -/

/-- A name of one part is printed as that part. -/
theorem Name.print_of_single? {n : Name} {name : Text} (h : n.single? = some name) :
    n.print = name := by
  obtain ⟨parts, absolute⟩ := n
  unfold single? at h
  split at h
  · -- one part, and relative
    next part heq =>
    cases heq
    cases h
    simp [print]
  · cases h

namespace Tag

variable {depth : Nat}

/-- The first word is of the same kind after another gap. -/
theorem kind_head_after {kind : Kind} {ws : List Word} (h : ∀ w ∈ ws.head?, w.kind ≠ kind)
    (gap : Text) : ∀ w ∈ (after gap ws).head?, w.kind ≠ kind := by
  cases ws with
  | nil => exact h
  | cons => simpa using h

/-- The gap stands in front of an optional word, or else in front of what follows it. -/
theorem exists_after_mark {kind : Kind} {marked : Bool} {ss : List Word} (h : Mark kind marked ss)
    (gap : Text) (ws : List Word) : ∃ ss' gap', Mark kind marked ss' ∧
      after gap (ss ++ ws) = ss' ++ after gap' ws := by
  cases h with
  | absent => exact ⟨[], gap, .absent, rfl⟩
  | @present w hw =>
    refine ⟨[{ w with gap := gap }], (ws.head?.map Word.gap).getD [], .present hw, ?_⟩
    cases ws <;> rfl

/-- A method is spelled after any gap. -/
theorem SpelledMethod.after {m : Method} {ws : List Word} (h : SpelledMethod depth m ws)
    (gap : Text) : SpelledMethod depth m (after gap ws) := by
  have horderly := orderly_spelled depth
  -- the gap goes to the word that comes first: the mark, or what the method begins with
  cases h with
  | named hs hn hname hfirst hjs hl hps =>
    obtain ⟨ss', gap', hs', hafter⟩ := exists_after_mark hs gap _
    rw [hafter, Word.after_append (ne_nil_of_starts (horderly.starts hn))]
    exact .named hs' (horderly.after hn gap') hname
      (fun h => kind_head_after (hfirst h) gap') hjs hl hps
  | typed hs hty hfirst hn hl hps =>
    obtain ⟨ss', gap', hs', hafter⟩ := exists_after_mark hs gap _
    rw [hafter, Word.after_append (ne_nil_of_starts (horderly.starts hty))]
    exact .typed hs' (horderly.after hty gap')
      (fun h => kind_head_after (hfirst h) gap') hn hl hps

/-- A printed type begins with the same kind of word. -/
theorem kind_head_of_written {t : Text} {old ws : List Word} (h : Written t old ws) (hne : ws ≠ [])
    {kind : Kind} (hold : ∀ w ∈ old.head?, w.kind ≠ kind) : ∀ w ∈ ws.head?, w.kind ≠ kind := by
  intro w hw
  -- the first word printed has the kind and text of the first word read
  have hfront := h.front hne
  rw [Option.mem_def.mp hw] at hfront
  cases old with
  | nil => cases hfront
  | cons u old =>
    have hcore : w.core = u.core := by simpa using hfront
    have hkind : w.kind = u.kind := congrArg Prod.fst hcore
    rw [hkind]
    exact hold u rfl

/-- The word `static` is printed with a blank after it, in front of a method that has it. -/
theorem respell_static {isStatic : Bool} {ss us vs : List Word} {t : Text}
    (hs : Mark .static isStatic ss) (hss : Genuine ss) (h : Written t us vs) (hne : vs ≠ []) :
    ∃ ss' gap, Mark .static isStatic ss' ∧
      Written ((if isStatic then "static ".toList else []) ++ t) (ss ++ us)
        (ss' ++ after gap vs) := by
  cases hs with
  | absent =>
    obtain ⟨w, vs, rfl⟩ := List.exists_cons_of_ne_nil hne
    -- what is printed first has no gap before it
    exact ⟨[], w.gap, .absent, h⟩
  -- the modifier is printed with one blank behind it
  | @present s hs =>
    rw [genuine_cons] at hss
    have hstatic := (Written.single hss.1 (by rw [hs]; rfl)).append_after h (by simp) hne
    rw [text_of_kind hss.1 hs rfl] at hstatic
    exact ⟨[s.flush], [' '], .present hs, hstatic⟩

/-- A method is printed from words that spell it again. -/
theorem respell_method {m : Method} {ws : List Word} (h : SpelledMethod depth m ws)
    (hws : Genuine ws) : ∃ vs, SpelledMethod depth m vs ∧ vs ≠ [] ∧ Written m.print ws vs := by
  have horderly := orderly_spelled depth
  have hreprints := reprints_spelled depth
  cases h with
  | @named isStatic ss us xs l n name js ps hs hn hname hfirst hjs hl hps =>
    rw [genuine_append, genuine_append, genuine_cons] at hws
    obtain ⟨hss, hus, hparen, hxs⟩ := hws
    obtain ⟨us', ks, hn', hcarries, hname'⟩ := hreprints hn hus
    obtain ⟨xs', hps', -, hsignature⟩ := respell_signature hreprints horderly hps hxs
    have hne := ne_nil_of_starts (horderly.starts hn')
    -- a name does not end in a callable, whatever signature follows it
    have hopen : .word .lparen ∉ ks := by
      rw [hcarries.lparen]
      exact Bool.false_ne_true
    have hl' := hsignature.cons_closed hparen (by rw [hl]; rfl)
    rw [text_of_kind hparen hl rfl] at hl'
    have hcall := hname'.append hl' hne (breaks_cons (by decide))
    rw [show (TypeExpr.named n).print = name from Name.print_of_single? hname] at hcall
    obtain ⟨ss', gap, hs', hall⟩ := respell_static hs hss hcall (by simp)
    rw [Word.after_append hne] at hall
    have hfirst' (h : isStatic = false) : ∀ w ∈ (after gap us').head?, w.kind ≠ .static :=
      kind_head_after (kind_head_of_written hname' hne (hfirst h)) gap
    refine ⟨_, .named (l := l.flush) hs' (horderly.after hn' gap) hname hfirst' hopen hl hps',
      by simp, ?_⟩
    -- without a type, `static` is the result of the method, and printed alike
    have hstatic : (TypeExpr.named .static).print = "static".toList := rfl
    cases isStatic <;> simpa [Method.print, hstatic] using hall
  | @typed isStatic ss us xs n l ty js ps hs hty hfirst hn hl hps =>
    rw [genuine_append, genuine_append, genuine_cons, genuine_cons] at hws
    obtain ⟨hss, hus, hident, hparen, hxs⟩ := hws
    obtain ⟨us', ks, hty', -, hwritten⟩ := hreprints hty hus
    obtain ⟨xs', hps', -, hsignature⟩ := respell_signature hreprints horderly hps hxs
    -- a type begins with a word
    have hne := ne_nil_of_starts (horderly.starts hty')
    have hl' := hsignature.cons_closed hparen (by rw [hl]; rfl)
    rw [text_of_kind hparen hl rfl] at hl'
    have hcall := (Written.single hident (by rw [hn]; rfl)).append hl' (by simp)
      (breaks_cons (by decide))
    obtain ⟨ss', gap, hs', hall⟩ :=
      respell_static hs hss (hwritten.append_after hcall hne (by simp)) (by simp [hne])
    rw [Word.after_append hne] at hall
    have hfirst' (h : isStatic = false) : ∀ w ∈ (after gap us').head?, w.kind ≠ .static :=
      kind_head_after (kind_head_of_written hwritten hne (hfirst h)) gap
    refine ⟨_, .typed (n := { n with gap := [' '] }) (l := l.flush) hs' (horderly.after hty' gap)
      hfirst' hn hl hps', by simp, ?_⟩
    cases isStatic <;> simpa [Method.print] using hall

/-! ## Section 3: Fields -/

/-- Is the word `callable`, without a signature, the last thing printed before the description? -/
def endsInCallable : Tag → Bool
  | .typed _ ty _ | .var ty none _ | .template _ (some ty) _ | .alias _ ty _ => ty.endsInCallable
  | _ => false

theorem SpelledFields.endsInCallable_eq {keyword : Keyword} {mk : Text → Tag} {ws : List Word}
    {stop : List Word → Prop} (h : SpelledFields depth keyword mk ws stop) (d : Text) :
    (mk d).endsInCallable = (mk []).endsInCallable := by
  cases h <;> rfl

/-- The word that introduces the bound of a template in print. -/
def boundWord : Word :=
  ⟨.ident, "of".toList, []⟩

/-- A piece that is printed of the fields `ws`: words of types, all of them words of `ws`, or the
word before a bound. -/
def PieceOf (ws : List Word) (p : Text) : Prop :=
  ∃ old vs, Written p old vs ∧ vs ≠ [] ∧ old ⊆ boundWord :: ws

theorem PieceOf.mono {p : Text} {ws us : List Word} (h : PieceOf ws p) (hsub : ws ⊆ us) :
    PieceOf us p := by
  obtain ⟨old, vs, hwritten, hne, hold⟩ := h
  exact ⟨old, vs, hwritten, hne, fun w hw => List.cons_subset_cons _ hsub (hold hw)⟩

/-- What printing changes in the words of the fields of a tag: it condenses them, introduces a bound
by `of` only, and leaves out the `=` after the name of an alias. -/
inductive Edited : Keyword → List (Kind × Text) → List (Kind × Text) → Prop where
  | condensed {keyword : Keyword} {a b : List (Kind × Text)} (h : Condensed a b) :
      Edited keyword a b
  | bound (n : Kind × Text) {a b : List (Kind × Text)} (h : Condensed a b) :
      Edited .template (n :: (.ident, "as".toList) :: a) (n :: (.ident, "of".toList) :: b)
  | equals (n : Kind × Text) {e : Kind × Text} {a b : List (Kind × Text)} (he : e.1 = .equals)
      (h : Condensed a b) : Edited .alias (n :: e :: a) (n :: b)

/-- A bound is introduced by `of` already, or it is by `as`. -/
theorem edited_bound (n : Kind × Text) {b : Word} (hb : b.isBound = true)
    {old new : List (Kind × Text)} (h : Condensed old new) :
    Edited .template (n :: b.core :: old) (n :: boundWord.core :: new) := by
  obtain ⟨hkind, htext⟩ : b.kind = .ident ∧ (b.text = "of".toList ∨ b.text = "as".toList) := by
    simpa [Word.isBound] using hb
  -- the word before the bound is printed as `of`, whichever it was
  rcases htext with htext | htext
  · have hcore : b.core = boundWord.core := by rw [Word.core, hkind, htext]; rfl
    rw [hcore]
    exact .condensed (.keep _ (.keep _ h))
  · have hcore : b.core = (.ident, "as".toList) := by rw [Word.core, hkind, htext]
    rw [hcore]
    exact .bound _ h

/-- The fields of a tag in print, against the words `ws` from which they were read.  They are the
pieces `cells` and `parts` of the row, and `stop'` says what may follow them. -/
structure Reprinted (depth : Nat) (keyword : Keyword) (mk : Text → Tag) (ws : List Word)
    (stop : List Word → Prop) (cells parts : List Text) (stop' : List Word → Prop) : Prop where
  row : ∀ desc, (mk desc).row = ⟨('@' :: keyword.text) :: cells, Row.joinTail (parts ++ [desc])⟩
  pieces : ∀ p ∈ cells ++ parts, PieceOf ws p
  edited : ∃ new, Edited keyword (ws.map Word.core) new ∧
    (cells ++ parts).flatMap Text.despace = Word.dense new
  spelled : ∀ y, Spread (cells ++ parts) y → ∃ vs, source vs = y ∧ Phrase vs ∧
    (∀ w ∈ vs, w.kind.isTypeWord = true) ∧ SpelledFields depth keyword mk vs stop'
  stops : ∀ us, stop us →
    (stop' us ↔ ((mk []).endsInCallable = true → ∀ w ∈ us.head?, w.kind ≠ .lparen))

/-- Printed joints differ only by the parenthesis a callable may go on with. -/
theorem clear_iff_of_carries {js ks : List Joint} {isOpen : Bool} (h : Carries js ks isOpen)
    {us : List Word} (hclear : Clear js us) :
    Clear ks us ↔ (isOpen = true → ∀ w ∈ us.head?, w.kind ≠ .lparen) := by
  constructor
  · intro hks hopen w hw
    have hmeets := hks _ (h.lparen.mpr hopen)
    rw [Joint.meets_word, Option.mem_def.mp hw] at hmeets
    simpa using hmeets
  · intro hfirst j hj
    -- the parenthesis is the joint of a callable only
    by_cases hparen : j = .word .lparen
    · subst hparen
      rw [Joint.meets_word]
      have := hfirst (h.lparen.mp hj)
      cases hus : us.head? with
      | none => rfl
      | some w => simpa using this w hus
    · exact hclear j ((List.mem_cons.mp (h.subset hj)).resolve_left hparen)

variable {keyword : Keyword} {mk : Text → Tag} {ws : List Word} {stop : List Word → Prop}

/-- Fields of which one piece is printed. -/
theorem reprinted_one {p : Text} {old us : List Word} {stop' : List Word → Prop}
    (hrow : ∀ desc, (mk desc).row = ⟨['@' :: keyword.text, p], desc⟩) (hp : Written p old us)
    (hne : us ≠ []) (hold : old ⊆ boundWord :: ws)
    (hedited : Edited keyword (ws.map Word.core) (us.map Word.core))
    (hspelled : ∀ b, SpelledFields depth keyword mk (after b us) stop')
    (hstops : ∀ us, stop us →
      (stop' us ↔ ((mk []).endsInCallable = true → ∀ w ∈ us.head?, w.kind ≠ .lparen))) :
    Reprinted depth keyword mk ws stop [p] [] stop' where
  row desc := by rw [hrow, List.nil_append, Row.joinTail_singleton]
  pieces := by
    intro x hx
    obtain rfl : x = p := by simpa using hx
    exact ⟨old, us, hp, hne, hold⟩
  edited := ⟨_, hedited, by simp [hp.despace_eq]⟩
  spelled y hy := by
    obtain ⟨b, hsource, hphrase, -, htyped⟩ := exists_words_of_spread hp hne hy
    exact ⟨_, hsource, hphrase, htyped, hspelled b⟩
  stops := hstops

/-- Fields of which two pieces are printed. -/
theorem reprinted_two {p q : Text} {cells parts : List Text} {old old' us us' : List Word}
    {stop' : List Word → Prop} (hpieces : cells ++ parts = [p, q])
    (hrow : ∀ desc, (mk desc).row =
      ⟨('@' :: keyword.text) :: cells, Row.joinTail (parts ++ [desc])⟩)
    (hp : Written p old us) (hne : us ≠ []) (hold : old ⊆ boundWord :: ws)
    (hq : Written q old' us') (hne' : us' ≠ []) (hold' : old' ⊆ boundWord :: ws)
    (hedited : Edited keyword (ws.map Word.core) ((us ++ us').map Word.core))
    (hspelled : ∀ b b', SpelledFields depth keyword mk (after b us ++ after b' us') stop')
    (hstops : ∀ us, stop us →
      (stop' us ↔ ((mk []).endsInCallable = true → ∀ w ∈ us.head?, w.kind ≠ .lparen))) :
    Reprinted depth keyword mk ws stop cells parts stop' where
  row := hrow
  pieces := by
    intro x hx
    rw [hpieces] at hx
    rcases List.mem_pair.mp hx with rfl | rfl
    · exact ⟨old, us, hp, hne, hold⟩
    · exact ⟨old', us', hq, hne', hold'⟩
  edited := ⟨_, hedited, by simp [hpieces, hp.despace_eq, hq.despace_eq]⟩
  spelled y hy := by
    rw [hpieces] at hy
    obtain ⟨b, b', hsource, hphrase, htyped⟩ := exists_words_of_spread_pair hp hne hq hne' hy
    exact ⟨_, hsource, hphrase, htyped, hspelled b b'⟩
  stops := hstops

/-- Nothing goes on with fields that end in a variable. -/
theorem stops_of_closed (h : (mk []).endsInCallable = false) (us : List Word) (_ : stop us) :
    True ↔ ((mk []).endsInCallable = true → ∀ w ∈ us.head?, w.kind ≠ .lparen) := by
  simp [h]

/-- A type and a variable are printed as two pieces. -/
theorem reprinted_variable {ty : TypeExpr} {us : List Word} {js : List Joint} {v : Word}
    (hty : Spelled depth ty us js) (hv : v.kind = .var) (hws : Genuine (us ++ [v]))
    (hrow : ∀ desc, (mk desc).row =
      ⟨['@' :: keyword.text, ty.print], Row.joinTail ['$' :: v.text.tail, desc]⟩)
    (hspelled : ∀ (vs : List Word) (ks : List Joint) (u : Word), Spelled depth ty vs ks →
      u.kind = .var → u.text = v.text → SpelledFields depth keyword mk (vs ++ [u]) fun _ => True)
    (hclosed : (mk []).endsInCallable = false) :
    Reprinted depth keyword mk (us ++ [v]) stop [ty.print] [v.text] fun _ => True := by
  have horderly := orderly_spelled depth
  rw [genuine_append, genuine_cons] at hws
  obtain ⟨hus, hvar, -⟩ := hws
  obtain ⟨vs, ks, hvs, -, hwritten⟩ := reprints_spelled depth hty hus
  -- the variable is a word of its own
  have hname := Written.single hvar (by rw [hv]; rfl)
  refine reprinted_two rfl ?_ hwritten (ne_nil_of_starts (horderly.starts hvs)) ?_ hname (by simp) ?_
    (.condensed (hwritten.kept_append hname)) ?_ (stops_of_closed hclosed)
  · intro desc
    rw [dollar_of_var hvar.1 hv]
    exact hrow desc
  · exact fun w hw => List.mem_cons_of_mem _ (List.mem_append_left [v] hw)
  · exact fun w hw => List.mem_cons_of_mem _ (List.mem_append_right us hw)
  · intro b b'
    exact hspelled _ ks { v with gap := b' } (horderly.after hvs b) hv rfl

/-- The fields of a tag are printed as a spelling of them. -/
theorem respell_fields (h : SpelledFields depth keyword mk ws stop) (hws : Genuine ws) :
    ∃ cells parts stop', Reprinted depth keyword mk ws stop cells parts stop' := by
  have horderly := orderly_spelled depth
  have hreprints := reprints_spelled depth
  have hself (us : List Word) : us ⊆ boundWord :: us := List.subset_cons_self _ _
  -- one case per tag, each with the cells and the pieces its row is made of
  cases h with
  | @param p ws js hp =>
    cases hp with
    | @mk ty us bs js byRef variadic name hty hb hclear =>
      rw [genuine_append] at hws
      obtain ⟨vs, ks, hvs, -, hwritten⟩ := hreprints hty hws.1
      obtain ⟨hb', hbinder⟩ := respell_binder hb hws.2
      have hclear' := clear_flush_binder (horderly.joints hvs) hb
      refine ⟨[ty.print], [_], Clear [], reprinted_two rfl ?_ hwritten
        (ne_nil_of_starts (horderly.starts hvs)) ?_ hbinder hb'.ne_nil ?_
        (.condensed (hwritten.kept_append hbinder)) ?_ ?_⟩
      · intro desc
        rw [← List.append_assoc]
        rfl
      · exact fun w hw => hself _ (List.mem_append_left bs hw)
      · exact fun w hw => hself _ (List.mem_append_right us hw)
      · intro b b'
        exact .param (.mk (horderly.after hvs b) (hb'.after b') (hclear'.after b'))
      · simp [endsInCallable]
  | @typed k ty ws js hty =>
    obtain ⟨us, ks, hus, hcarries, hwritten⟩ := hreprints hty hws
    refine ⟨[ty.print], [], Clear ks, reprinted_one (fun _ => rfl) hwritten
      (ne_nil_of_starts (horderly.starts hus)) (hself _) (.condensed hwritten.kept) ?_ ?_⟩
    · exact fun b => .typed (horderly.after hus b)
    · exact fun us hclear => clear_iff_of_carries hcarries hclear
  | @property a ty us js v hty hv =>
    refine ⟨_, _, _, reprinted_variable hty hv hws (fun _ => rfl) ?_ rfl⟩
    intro vs ks u hvs hu htext
    rw [← htext]
    exact .property hvs hu
  | @method m ws hm =>
    obtain ⟨vs, hvs, hne, hwritten⟩ := respell_method hm hws
    refine ⟨[m.print], [], Clear [.word .colon], reprinted_one (fun _ => rfl) hwritten hne (hself _)
      (.condensed hwritten.kept) (fun b => .method (hvs.after b)) ?_⟩
    intro us hclear
    simp [hclear, endsInCallable]
  | @var ty ws js hty =>
    obtain ⟨us, ks, hus, hcarries, hwritten⟩ := hreprints hty hws
    refine ⟨[ty.print], [], Clear (.word .var :: ks), reprinted_one ?_ hwritten
      (ne_nil_of_starts (horderly.starts hus)) (hself _) (.condensed hwritten.kept) ?_ ?_⟩
    · intro desc
      exact congrArg (Row.mk ['@' :: Keyword.var.text, ty.print]) (Row.joinTail_singleton desc)
    · exact fun b => .var (horderly.after hus b)
    · exact fun us hclear => clear_iff_of_carries (hcarries.cons (by simp)) hclear
  | @varNamed ty us js v hty hv =>
    refine ⟨_, _, _, reprinted_variable hty hv hws (fun _ => rfl) ?_ rfl⟩
    intro vs ks u hvs hu htext
    rw [← htext]
    exact .varNamed hvs hu
  -- a template without a bound prints its name
  | @template n hn =>
    rw [genuine_cons] at hws
    have hname := Written.single hws.1 (by rw [hn]; rfl)
    refine ⟨[n.text], [], _, reprinted_one (fun _ => rfl) hname (by simp) (hself _)
      (.condensed hname.kept) (fun b => .template (n := { n with gap := b }) hn) ?_⟩
    intro us hstop
    simp [hstop, endsInCallable]
  -- the bound is printed with `of` in one cell with the name
  | @bound n b ty us js hn hb hty =>
    rw [genuine_cons, genuine_cons] at hws
    obtain ⟨vs, ks, hvs, hcarries, hwritten⟩ := hreprints hty hws.2.2
    have hne := ne_nil_of_starts (horderly.starts hvs)
    have hof : Written "of".toList [boundWord] [boundWord] :=
      .single (w := boundWord) ⟨rfl, by decide⟩ rfl
    have hall := (Written.single hws.1 (by rw [hn]; rfl)).append_after
      (hof.append_after hwritten (by simp) hne) (by simp) (by simp)
    refine ⟨[_], [], Clear ks, reprinted_one ?_ hall (by simp) ?_ ?_ ?_ ?_⟩
    · intro desc
      simp [Tag.row]
      rfl
    · intro w hw
      simp only [List.mem_append, List.mem_cons, List.not_mem_nil, or_false] at hw ⊢
      rcases hw with rfl | rfl | hw
      · exact .inr (.inl rfl)
      · exact .inl rfl
      · exact .inr (.inr (.inr hw))
    · simp only [List.map_append, List.map_cons, List.map_nil, Word.map_core_after]
      exact edited_bound n.core hb hwritten.kept
    · intro gap
      exact .bound (n := { n with gap := gap }) (b := { boundWord with gap := [' '] }) hn rfl
        (horderly.after hvs _)
    · exact fun us hclear => clear_iff_of_carries hcarries hclear
  | @«alias» n e es us ty js hn he hty =>
    rw [genuine_cons, genuine_append] at hws
    obtain ⟨vs, ks, hvs, hcarries, hwritten⟩ := hreprints hty hws.2.2
    have hname := Written.single hws.1 (by rw [hn]; rfl)
    refine ⟨[n.text, ty.print], [], Clear ks, reprinted_two rfl ?_ hname (by simp) ?_ hwritten
      (ne_nil_of_starts (horderly.starts hvs)) ?_ ?_ ?_ ?_⟩
    · intro desc
      rw [List.nil_append, Row.joinTail_singleton]
      rfl
    · intro w hw
      simp_all
    · intro w hw
      simp_all
    · -- the equals sign is left out in print
      cases he with
      | absent => exact .condensed (.keep _ hwritten.kept)
      | present he => exact .equals _ he hwritten.kept
    · intro b b'
      exact .alias (n := { n with gap := b }) hn .absent (horderly.after hvs b')
    · exact fun us hclear => clear_iff_of_carries hcarries hclear

end Tag

end Docblock
