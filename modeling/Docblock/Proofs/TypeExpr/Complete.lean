import Docblock.Proofs.TypeExpr.Sound

/-!
# Readers accept the grammar

Lexemes whose words spell a tree are read as that tree, whatever follows them, so long as it is
clear of the joints of the spelling.  With `Docblock.Proofs.TypeExpr.Sound` this makes the grammar
an exact account of the readers.

Both directions go through the same rules, but here the argument is on the spelling: each rule says
which branch the reader takes, and the joints of a part are clear of the word that the rule puts
after it.
-/

namespace Docblock

open Lexeme (words words_eq_nil words_eq_cons words_eq_singleton words_eq_append)

/-- Lexemes that spell a tree are read as this tree where nothing goes on with it. -/
def Reader.Complete {α : Type} (r : Reader α) (G : Grammar α) : Prop :=
  ∀ ⦃x : α⦄ ⦃ws : List Word⦄ ⦃js : List Joint⦄, G x ws js → ∀ ⦃pre rest : List Lexeme⦄,
    words pre = ws → Clear js (words rest) → r (pre ++ rest) = .ok (x, rest)

namespace TypeExpr

open Reader

variable {pre rest : List Lexeme} {ws : List Word}

/-! ## Section 1: Leaves -/

/-- A mark that may be there is skipped exactly when it is there, provided that what follows is not
the mark. -/
theorem skip_mark {kind : Kind} {b : Bool} (h : Mark kind b ws) (hpre : words pre = ws)
    (hrest : b = false → at? kind rest = false) : skip kind (pre ++ rest) = (b, rest) := by
  cases h with
  -- nothing is skipped, and what follows must not look like the mark
  | absent =>
    obtain rfl := words_eq_nil.mp hpre
    exact skip_of_at? (hrest rfl)
  | present hw =>
    obtain ⟨t, rfl, rfl⟩ := words_eq_singleton.mp hpre
    exact skip_cons hw

/-- The parts of a name are read where no backslash follows. -/
theorem complete_nameParts : Reader.Complete nameParts SpelledParts := by
  intro parts ws js h
  -- induction on the parts; only the last one borders on what follows
  induction h with
  | last hw =>
    intro pre rest hpre hclear
    obtain ⟨t, rfl, rfl⟩ := words_eq_singleton.mp hpre
    cases rest with
    | nil => simp_all [nameParts]
    | cons u rest => simp_all [nameParts, Joint.meets]
  | cons hw hb _ ih =>
    intro pre rest hpre hclear
    obtain ⟨t, us, rfl, rfl, hus⟩ := words_eq_cons.mp hpre
    obtain ⟨b, vs, rfl, rfl, hvs⟩ := words_eq_cons.mp hus
    have ht : t.kind = .ident := hw
    have hb : b.kind = .backslash := hb
    simp only [List.cons_append, nameParts, ht, hb, if_true, ih hvs hclear]
    rfl

/-- So is a name, absolute or relative. -/
theorem complete_nameReader : Reader.Complete nameReader SpelledName := by
  intro n ws js h pre rest hpre hclear
  unfold nameReader
  cases h with
  | relative h =>
    -- a relative name begins with an identifier and not with the backslash
    have hskip : skip .backslash (pre ++ rest) = (false, pre ++ rest) := by
      apply skip_of_at?
      cases h with
      | last hw | cons hw =>
        obtain ⟨t, us, rfl, rfl, hus⟩ := words_eq_cons.mp hpre
        have ht : t.kind = .ident := hw
        simp [ht]
    simp only [hskip, complete_nameParts h hpre hclear]
    rfl
  -- an absolute name has its backslash in front, behind which it goes on as a relative one
  | absolute hb h =>
    obtain ⟨b, us, rfl, rfl, hus⟩ := words_eq_cons.mp hpre
    simp only [List.cons_append, skip_cons hb, complete_nameParts h hus hclear]
    rfl

/-- The name of a constant is read where no asterisk follows it. -/
theorem complete_constantName : Reader.Complete constantName SpelledConstant := by
  intro name ws js h pre rest hpre hclear
  cases h with
  | any ha =>
    obtain ⟨t, rfl, rfl⟩ := words_eq_singleton.mp hpre
    have ht : t.kind = .asterisk := ha
    simp [constantName, ht]
  | exact hw =>
    obtain ⟨t, rfl, rfl⟩ := words_eq_singleton.mp hpre
    have ht : t.kind = .ident := hw
    cases rest with
    | nil => simp [constantName, ht]
    | cons u rest =>
      have hu : u.kind ≠ .asterisk := by simpa [Joint.meets] using hclear
      simp [constantName, ht, hu]
  -- the asterisk stands next to the name, so it belongs to it
  | ending hw ha hgap =>
    obtain ⟨t, us, rfl, rfl, hus⟩ := words_eq_cons.mp hpre
    obtain ⟨a, rfl, rfl⟩ := words_eq_singleton.mp hus
    have ht : t.kind = .ident := hw
    have ha : a.kind = .asterisk := ha
    have hgap : a.gap = [] := hgap
    simp [constantName, ht, ha, Lexeme.isGlued, hgap]

/-- A binder that is spelled out, after which anything may follow. -/
theorem binder_of_spelled {named : Bool} {b : Bool × Bool × Text} (h : SpelledBinder b ws)
    (hpre : words pre = ws) (rest : List Lexeme) :
    binder named (pre ++ rest) = .ok ((b.1, b.2.1, some b.2.2), rest) := by
  cases h with
  | @mk byRef variadic as es v ha he hv =>
    obtain ⟨xs, vs, rfl, hxs, hvs⟩ := words_eq_append.mp hpre
    obtain ⟨as', es', rfl, has, hes⟩ := words_eq_append.mp hxs
    obtain ⟨t, rfl, rfl⟩ := words_eq_singleton.mp hvs
    have ht : t.kind = .var := hv
    -- neither mark is mistaken for the other, nor the variable for one of them
    have hell : skip .ellipsis (es' ++ t :: rest) = (variadic, t :: rest) :=
      skip_mark he hes fun _ => by simp [ht]
    have hamp : skip .amp (as' ++ (es' ++ t :: rest)) = (byRef, es' ++ t :: rest) := by
      refine skip_mark ha has fun _ => ?_
      cases he with
      | absent =>
        obtain rfl := words_eq_nil.mp hes
        simp [ht]
      | present he =>
        obtain ⟨e, us, rfl, rfl, hus⟩ := words_eq_cons.mp hes
        have he : e.kind = .ellipsis := he
        simp [he]
    simp only [List.append_assoc, List.cons_append, List.nil_append, binder, hamp, hell, ht, if_true]
    rfl

/-- Without a binder, what follows is neither a mark nor a variable. -/
theorem binder_bare {ts : List Lexeme}
    (h : Clear [.word .amp, .word .ellipsis, .word .var] (words ts)) :
    binder false ts = .ok ((false, false, none), ts) := by
  simp only [clear_cons_left, Joint.meets_words, clear_nil_left, and_true] at h
  -- none of the three words is there, so no mark is skipped and no variable read
  obtain ⟨hamp, hell, hvar⟩ := h
  simp only [binder, skip_of_at? hamp, skip_of_at? hell]
  cases ts with
  | nil => rfl
  | cons t ts =>
    have ht : t.kind ≠ .var := by simpa using hvar
    simp [ht]

/-! ## Section 2: Items between brackets -/

/-- The items of a list can be told apart from its commas and its end. -/
structure Itemises {α : Type} (Item : Grammar α) (close : Kind) : Prop where
  clear : ∀ {x : α} {ws : List Word} {js : List Joint}, Item x ws js → ∀ (w : Word) (vs : List Word),
    w.kind = .comma ∨ w.kind = close → Clear js (w :: vs)
  starts : ∀ {x : α} {ws : List Word} {js : List Joint}, Item x ws js →
    ∃ w vs, ws = w :: vs ∧ w.kind ≠ close
  proper : close ≠ .comma

theorem SpelledItems.starts {α : Type} {Item : Grammar α} {close : Kind}
    (hitem : Itemises Item close) {xs : List α} (h : SpelledItems Item close xs ws) :
    ∃ w vs, ws = w :: vs ∧ w.kind ≠ close := by
  cases h with
  | last h _ | trailing h _ _ | cons h _ _ =>
    obtain ⟨w, vs, rfl, hw⟩ := hitem.starts h
    exact ⟨w, _, rfl, hw⟩

theorem SpelledItems.length_le {α : Type} {Item : Grammar α} {close : Kind} {xs : List α}
    (h : SpelledItems Item close xs ws) : xs.length ≤ ws.length := by
  induction h with
  | last | trailing => simp
  | cons _ _ _ ih => simp only [List.length_cons, List.length_append]; omega

/-- Spelled items are read up to the closing bracket if the bound is large enough. -/
theorem listUpTo_of_spelled {α : Type} {item : Reader α} {Item : Grammar α} {close : Kind}
    (hcomplete : item.Complete Item) (hitem : Itemises Item close) {xs : List α}
    (h : SpelledItems Item close xs ws) {n : Nat} (hn : xs.length ≤ n) (hpre : words pre = ws)
    (rest : List Lexeme) : listUpTo item close n (pre ++ rest) = .ok (xs, rest) := by
  -- induction on the items: the last one, one with a comma behind it, and one before others
  induction h generalizing n pre with
  | @last x _ _ _ h hc =>
    obtain ⟨us, vs, rfl, hus, hvs⟩ := words_eq_append.mp hpre
    obtain ⟨c, rfl, rfl⟩ := words_eq_singleton.mp hvs
    obtain ⟨n, rfl⟩ := Nat.exists_eq_add_one.mpr hn
    have hx : item (us ++ c :: rest) = .ok (x, c :: rest) :=
      hcomplete h hus (hitem.clear h _ _ (.inr hc))
    have hc : c.kind = close := hc
    have hskip : skip .comma (c :: rest) = (false, c :: rest) :=
      skip_of_at? (by simp [hc, hitem.proper])
    rw [List.append_assoc, List.cons_append, List.nil_append]
    simp only [listUpTo, hx, ok_bind, hskip, expect_cons hc]
    rfl
  | @trailing x _ _ _ _ h hm hc =>
    obtain ⟨us, vs, rfl, hus, hvs⟩ := words_eq_append.mp hpre
    obtain ⟨m, vs', rfl, rfl, hvs'⟩ := words_eq_cons.mp hvs
    obtain ⟨c, rfl, rfl⟩ := words_eq_singleton.mp hvs'
    obtain ⟨n, rfl⟩ := Nat.exists_eq_add_one.mpr hn
    have hx : item (us ++ m :: c :: rest) = .ok (x, m :: c :: rest) :=
      hcomplete h hus (hitem.clear h _ _ (.inl hm))
    have hat : at? close (c :: rest) = true := by simpa using hc
    rw [List.append_assoc, List.cons_append, List.cons_append, List.nil_append]
    simp only [listUpTo, hx, ok_bind, skip_cons (show m.kind = .comma from hm), hat]
    rfl
  | @cons x _ _ _ _ _ h hm hxs ih =>
    obtain ⟨us, vs, rfl, hus, hvs⟩ := words_eq_append.mp hpre
    obtain ⟨m, vs', rfl, rfl, hvs'⟩ := words_eq_cons.mp hvs
    obtain ⟨n, rfl⟩ := Nat.exists_eq_add_one.mpr (Nat.lt_of_lt_of_le (Nat.succ_pos _) hn)
    have hx : item (us ++ m :: (vs' ++ rest)) = .ok (x, m :: (vs' ++ rest)) :=
      hcomplete h hus (hitem.clear h _ _ (.inl hm))
    -- what follows the comma is an item, and so not the end
    have hat : at? close (vs' ++ rest) = false := by
      obtain ⟨w, ws, rfl, hw⟩ := hxs.starts hitem
      obtain ⟨t, us', rfl, rfl, -⟩ := words_eq_cons.mp hvs'
      simpa using hw
    have hothers := ih (Nat.le_of_succ_le_succ hn) hvs'
    rw [List.append_assoc, List.cons_append]
    simp only [listUpTo, hx, ok_bind, skip_cons (show m.kind = .comma from hm), hat, hothers]
    rfl

/-- The bound that the reader sets itself, the number of lexemes, is large enough. -/
theorem list_of_spelled {α : Type} {item : Reader α} {Item : Grammar α} {close : Kind}
    (hcomplete : item.Complete Item) (hitem : Itemises Item close) {xs : List α}
    (h : SpelledItems Item close xs ws) (hpre : words pre = ws) (rest : List Lexeme) :
    list item close (pre ++ rest) = .ok (xs, rest) := by
  refine listUpTo_of_spelled hcomplete hitem h ?_ hpre rest
  have hlength := h.length_le
  rw [← hpre, Lexeme.length_words] at hlength
  rw [List.length_append]
  omega

/-! ## Section 3: The readers of types -/

section Inner

variable {inner : Reader TypeExpr} {Inner : Grammar TypeExpr}

/-- The entry of a shape is read as spelled. -/
theorem complete_entry (hinner : inner.Complete Inner) :
    (entry inner).Complete (SpelledEntry Inner) := by
  intro e ws js h pre rest hpre hclear
  cases h with
  | @mk k c optional qs ws js ty hk hq hc hty =>
    obtain ⟨t, us, rfl, rfl, hus⟩ := words_eq_cons.mp hpre
    obtain ⟨qs', vs, rfl, hqs, hvs⟩ := words_eq_append.mp hus
    obtain ⟨c, vs', rfl, rfl, hvs'⟩ := words_eq_cons.mp hvs
    have hc : c.kind = .colon := hc
    have hskip : skip .question (qs' ++ (c :: (vs' ++ rest))) = (optional, c :: (vs' ++ rest)) :=
      skip_mark hq hqs fun _ => by simp [hc]
    simp only [List.cons_append, List.append_assoc, entry, show isKey t.kind = true from hk, if_true,
      hskip, expect_cons hc, ok_bind, hinner hty hvs' hclear]
    rfl

/-- Entries begin with a key, and neither a comma nor a brace goes on with one. -/
theorem itemises_entry (hinner : Orderly Inner) : Itemises (SpelledEntry Inner) .rbrace where
  clear h w vs hw := by
    cases h with
    | mk _ _ _ hty =>
      apply clear_cons (hinner.joints hty)
      · rcases hw with hw | hw <;> simp [hw, Joint.ofType]
      · rcases hw with hw | hw <;> simp [hw]
  starts h := by
    cases h with
    | mk hk _ _ _ =>
      refine ⟨_, _, rfl, ?_⟩
      intro h
      simp [h, isKey] at hk
  proper := nofun

/-- The braces of a shape are read as spelled, and no braces where none follow. -/
theorem complete_entries (hinner : inner.Complete Inner) (horderly : Orderly Inner) :
    (entries inner).Complete (SpelledEntries Inner) := by
  intro es ws js h pre rest hpre hclear
  cases h with
  | none =>
    obtain rfl := words_eq_nil.mp hpre
    rw [clear_cons_left, Joint.meets_words] at hclear
    simp only [List.nil_append, entries, skip_of_at? hclear.1]
  | some hl hes =>
    obtain ⟨l, us, rfl, rfl, hus⟩ := words_eq_cons.mp hpre
    have hlist := list_of_spelled (complete_entry hinner) (itemises_entry horderly) hes hus rest
    simp only [List.cons_append, entries, skip_cons (show l.kind = .lbrace from hl), hlist]

/-- The joints of a type are clear of the binder after it, also with what follows the binder. -/
theorem clear_binder {js : List Joint} {b : Bool × Bool × Text} (h : SpelledBinder b ws)
    (hclear : Clear js ws) (hpre : words pre = ws) (rest : List Lexeme) :
    Clear js (words (pre ++ rest)) := by
  rw [Lexeme.words_append, hpre]
  generalize words rest = xs
  cases h with
  | mk ha he hv =>
    intro j hj
    have := hclear j hj
    -- the joint sees at most two words, and the binder has two if it begins with an `&`
    cases ha with
    | absent =>
      cases he with
      | absent => cases j <;> cases xs <;> simp_all [Joint.meets]
      | present he => cases j <;> simp_all [Joint.meets]
    | present ha =>
      cases he with
      | absent => cases j <;> simp_all [Joint.meets]
      | present he => cases j <;> simp_all [Joint.meets]

/-- The parameter of a tag is read as spelled. -/
theorem complete_tagParam (hinner : inner.Complete Inner) :
    (tagParam inner).Complete (SpelledTagParam Inner) := by
  intro p ws js h pre rest hpre _
  cases h with
  | mk hty hb hclear =>
    obtain ⟨us, vs, rfl, hus, hvs⟩ := words_eq_append.mp hpre
    have hrest := clear_binder hb hclear hvs rest
    simp only [List.append_assoc, tagParam, hinner hty hus hrest, ok_bind,
      binder_of_spelled hb hvs rest]
    rfl

/-- So is the parameter of a callable, in each of its three forms. -/
theorem complete_signatureParam (hinner : inner.Complete Inner) :
    (signatureParam inner).Complete (SpelledParam Inner) := by
  intro p ws js h pre rest hpre hclear
  cases h with
  | @bare ty ws js hty =>
    have hjs : Clear js (words rest) := hclear.mono fun j hj => by simp [hj]
    have hbare : binder false rest = .ok ((false, false, none), rest) :=
      binder_bare (hclear.mono (by simp))
    simp only [signatureParam, hinner hty hpre hjs, ok_bind, hbare]
    rfl
  | named hty hb hvs =>
    obtain ⟨us, vs, rfl, hus, hvs'⟩ := words_eq_append.mp hpre
    have hrest := clear_binder hb hvs hvs' rest
    have hat : at? .equals rest = false := by
      simpa [Joint.meets_words] using hclear
    simp only [List.append_assoc, signatureParam, hinner hty hus hrest, ok_bind,
      binder_of_spelled hb hvs' rest, hat]
    rfl
  | default hty hb hvs he hd =>
    obtain ⟨xs, ds, rfl, hxs, hds⟩ := words_eq_append.mp hpre
    obtain ⟨us, vs, rfl, hus, hvs'⟩ := words_eq_append.mp hxs
    obtain ⟨e, ds', rfl, rfl, hds'⟩ := words_eq_cons.mp hds
    obtain ⟨d, rfl, rfl⟩ := words_eq_singleton.mp hds'
    have hrest := clear_binder hb hvs hvs' (e :: d :: rest)
    have hat : at? .equals (e :: d :: rest) = true := by simpa using he
    have hvalue : defaultValue (d :: rest) = .ok (d.text, rest) := by
      simp [defaultValue, show isDefault d.kind = true from hd]
    simp only [List.append_assoc, List.cons_append, List.nil_append, signatureParam,
      hinner hty hus hrest, ok_bind, binder_of_spelled hb hvs' (e :: d :: rest), hat,
      List.tail_cons, hvalue]
    rfl

theorem itemises_param (hinner : Orderly Inner) : Itemises (SpelledParam Inner) .rparen where
  clear h w vs hw := by
    have hof : .word w.kind ∉ Joint.ofType := by
      rcases hw with hw | hw <;> simp [hw, Joint.ofType]
    have hamp : w.kind ≠ .amp := by
      rcases hw with hw | hw <;> simp [hw]
    cases h with
    | bare hty =>
      have hjs := clear_cons (hinner.joints hty) vs hof hamp
      rcases hw with hw | hw <;> simp [Joint.meets, hw, hjs]
    | named => rcases hw with hw | hw <;> simp [Joint.meets, hw]
    | default => exact clear_nil_left _
  starts h := by
    cases h with
    | bare hty | named hty _ _ | default hty _ _ _ _ =>
      obtain ⟨w, vs, rfl, hw⟩ := hinner.starts hty
      refine ⟨w, _, rfl, ?_⟩
      intro h
      simp [h, Kind.startsType] at hw
  proper := nofun

/-- So are the parameters between parentheses. -/
theorem signature_of_spelled (hinner : inner.Complete Inner) (horderly : Orderly Inner)
    {ps : List (Param TypeExpr)} (h : SpelledSignature Inner ps ws) (hpre : words pre = ws)
    (rest : List Lexeme) : signature inner (pre ++ rest) = .ok (ps, rest) := by
  cases h with
  | empty hr =>
    obtain ⟨r, rfl, rfl⟩ := words_eq_singleton.mp hpre
    have hr : r.kind = .rparen := hr
    simp [signature, hr]
  | params hps =>
    have hitem := itemises_param horderly
    have hat : at? .rparen (pre ++ rest) = false := by
      obtain ⟨w, vs, rfl, hw⟩ := hps.starts hitem
      obtain ⟨t, us, rfl, rfl, -⟩ := words_eq_cons.mp hpre
      simpa using hw
    have hlist := list_of_spelled (complete_signatureParam hinner) hitem hps hpre rest
    rw [signature, hat, hlist]
    rfl

/-- So is what follows the word `callable`. -/
theorem complete_callableTail (hinner : inner.Complete Inner) (horderly : Orderly Inner) :
    (callableTail inner).Complete (SpelledCallable Inner) := by
  intro ty ws js h pre rest hpre hclear
  cases h with
  | bare =>
    obtain rfl := words_eq_nil.mp hpre
    rw [clear_cons_left, Joint.meets_words] at hclear
    simp only [List.nil_append, callableTail, skip_of_at? hclear.1]
  | plain hl hps =>
    obtain ⟨l, us, rfl, rfl, hus⟩ := words_eq_cons.mp hpre
    rw [clear_cons_left, Joint.meets_words] at hclear
    simp only [List.cons_append, callableTail, skip_cons (show l.kind = .lparen from hl),
      signature_of_spelled hinner horderly hps hus rest, ok_bind, skip_of_at? hclear.1]
    rfl
  | result hl hps hc hr =>
    obtain ⟨l, us, rfl, rfl, hus⟩ := words_eq_cons.mp hpre
    obtain ⟨ps', vs, rfl, hps', hvs⟩ := words_eq_append.mp hus
    obtain ⟨c, vs', rfl, rfl, hvs'⟩ := words_eq_cons.mp hvs
    simp only [List.cons_append, List.append_assoc, callableTail,
      skip_cons (show l.kind = .lparen from hl), signature_of_spelled hinner horderly hps hps' _,
      ok_bind, skip_cons (show c.kind = .colon from hc), hinner hr hvs' hclear]
    rfl

/-- Arguments begin as types do, and neither a comma nor `>` goes on with one. -/
theorem itemises_inner (hinner : Orderly Inner) : Itemises Inner .gt where
  clear h w vs hw := by
    apply clear_cons (hinner.joints h)
    · rcases hw with hw | hw <;> simp [hw, Joint.ofType]
    · rcases hw with hw | hw <;> simp [hw]
  starts h := by
    obtain ⟨w, vs, rfl, hw⟩ := hinner.starts h
    refine ⟨w, vs, rfl, ?_⟩
    intro h
    simp [h, Kind.startsType] at hw
  proper := nofun

/-- The word a type begins with is read as spelled, with what belongs to it. -/
theorem complete_head (hinner : inner.Complete Inner) (horderly : Orderly Inner) :
    (head inner).Complete (SpelledHead Inner) := by
  intro x ws js h pre rest hpre hclear
  cases h with
  | array hw hes =>
    obtain ⟨t, us, rfl, rfl, hus⟩ := words_eq_cons.mp hpre
    simp only [List.cons_append, head, show t.kind = .array from hw,
      complete_entries hinner horderly hes hus hclear]
    rfl
  | object hw hes =>
    obtain ⟨t, us, rfl, rfl, hus⟩ := words_eq_cons.mp hpre
    simp only [List.cons_append, head, show t.kind = .object from hw,
      complete_entries hinner horderly hes hus hclear]
    rfl
  | callable hw hty =>
    obtain ⟨t, us, rfl, rfl, hus⟩ := words_eq_cons.mp hpre
    simp only [List.cons_append, head, show t.kind = .callable from hw,
      complete_callableTail hinner horderly hty hus hclear]
    rfl
  | static hw =>
    obtain ⟨t, rfl, rfl⟩ := words_eq_singleton.mp hpre
    simp only [List.cons_append, List.nil_append, head, show t.kind = .static from hw]
  | named hn =>
    have hname := complete_nameReader hn hpre hclear
    obtain ⟨w, vs, rfl, hw⟩ := hn.starts
    obtain ⟨t, us, rfl, rfl, -⟩ := words_eq_cons.mp hpre
    rw [List.cons_append] at hname ⊢
    rcases hw with hw | hw
    · simp only [head, show t.kind = .ident from hw, hname]
      rfl
    · simp only [head, show t.kind = .backslash from hw, hname]
      rfl

/-- A basic type that may take arguments goes on with a brace or a backslash only. -/
theorem SpelledHead.joints_of_open {ty : TypeExpr} {js : List Joint}
    (h : SpelledHead Inner (ty, true) ws js) : js ⊆ [.word .lbrace, .word .backslash] := by
  cases h with
  | array _ hes | object _ hes => cases hes <;> simp
  | static => simp
  | named hn => simp [hn.joints]

/-- With its arguments it is read in two steps: the head, and the arguments if it allows any. -/
theorem arguments_of_spelled (hinner : inner.Complete Inner) (horderly : Orderly Inner)
    {ty : TypeExpr} {js : List Joint} (h : SpelledApplied Inner ty ws js) (hpre : words pre = ws)
    (hclear : Clear js (words rest)) :
    ∃ base allowed us, head inner (pre ++ rest) = .ok ((base, allowed), us) ∧
      arguments inner base allowed us = .ok (ty, rest) := by
  cases h with
  | closed hty => exact ⟨ty, false, rest, complete_head hinner horderly hty hpre hclear, rfl⟩
  | plain hty =>
    rw [clear_cons_left, Joint.meets_words] at hclear
    refine ⟨ty, true, rest, complete_head hinner horderly hty hpre hclear.2, ?_⟩
    simp [arguments, hclear.1]
  | @generic base args _ _ js l hty hl hargs =>
    obtain ⟨us, vs, rfl, hus, hvs⟩ := words_eq_append.mp hpre
    obtain ⟨l, vs', rfl, rfl, hvs'⟩ := words_eq_cons.mp hvs
    have hl : l.kind = .lt := hl
    -- vs' ++ rest)) := by :: the bracket of the arguments is no joint of the head before it
    have hopen : Clear js (words (l :: vs' ++ rest)) := by
      refine clear_cons_of_not_mem _ (fun h => ?_) (by simp [hl])
      simpa [hl] using hty.joints_of_open h
    refine ⟨base, true, l :: vs' ++ rest, ?_, ?_⟩
    · rw [List.append_assoc]
      exact complete_head hinner horderly hty hus hopen
    · have hlist := list_of_spelled hinner (itemises_inner horderly) hargs hvs' rest
      simp only [arguments, List.cons_append, at?_cons, hl, List.tail_cons, hlist]
      rfl

/-- A type up to its arguments and its constant is read as spelled. -/
theorem complete_basic (hinner : inner.Complete Inner) (horderly : Orderly Inner)
    (isNullable : Bool) : (basic inner isNullable).Complete (SpelledBasic Inner isNullable) := by
  intro ty ws js h pre rest hpre hclear
  cases h with
  | plain hty =>
    rw [clear_cons_left, Joint.meets_words] at hclear
    -- no `::` follows, so nothing is read behind the arguments
    obtain ⟨base, allowed, us, hhead, hargs⟩ :=
      arguments_of_spelled hinner horderly hty hpre hclear.2
    simp only [basic, hhead, ok_bind, hargs, member, skip_of_at? hclear.1]
  | @constant n _ name _ _ js _ hn hnull hc hname =>
    obtain ⟨us, vs, rfl, hus, hvs⟩ := words_eq_append.mp hpre
    obtain ⟨c, vs', rfl, rfl, hvs'⟩ := words_eq_cons.mp hvs
    have hc : c.kind = .doubleColon := hc
    -- a name goes on with a backslash or its arguments, not with `::`
    have hcolon : Clear js (words (c :: vs' ++ rest)) := by
      refine clear_cons_of_not_mem _ (fun h => ?_) (by simp [hc])
      cases hn with
      | closed hty =>
        cases hty with
        | callable _ hty => cases hty
      | plain hty =>
        rcases List.mem_cons.mp h with h | h
        · simp [hc] at h
        · simpa [hc] using hty.joints_of_open h
    obtain ⟨base, allowed, xs, hhead, hargs⟩ := arguments_of_spelled hinner horderly hn hus hcolon
    have hconstant := complete_constantName hname hvs' hclear
    rw [List.append_assoc]
    simp only [basic, hhead, ok_bind, hargs]
    simp only [member, List.cons_append, skip_cons hc, hnull, hconstant]
    rfl

/-- So are parentheses, literals, `$this` and a type with a question mark. -/
theorem complete_primary (hinner : inner.Complete Inner) (horderly : Orderly Inner) :
    (primary inner).Complete (SpelledPrimary Inner) := by
  intro ty ws js h pre rest hpre hclear
  cases h with
  | @paren _ _ _ _ js hl hty hr =>
    obtain ⟨l, us, rfl, rfl, hus⟩ := words_eq_cons.mp hpre
    obtain ⟨us', vs, rfl, hus', hvs⟩ := words_eq_append.mp hus
    obtain ⟨r, rfl, rfl⟩ := words_eq_singleton.mp hvs
    have hr : r.kind = .rparen := hr
    have hrest : Clear js (words (r :: rest)) :=
      clear_cons (horderly.joints hty) _ (by simp [hr, Joint.ofType]) (by simp [hr])
    simp only [List.cons_append, List.append_assoc, List.nil_append, primary,
      show l.kind = .lparen from hl, hinner hty hus' hrest, ok_bind, expect_cons hr]
    rfl
  | this hw =>
    obtain ⟨t, rfl, rfl⟩ := words_eq_singleton.mp hpre
    simp only [List.cons_append, List.nil_append, primary, show t.kind = .this from hw]
  | literal hw =>
    obtain ⟨t, rfl, rfl⟩ := words_eq_singleton.mp hpre
    rcases hw with hw | hw
    · simp only [List.cons_append, List.nil_append, primary, show t.kind = .str from hw]
      rfl
    · simp only [List.cons_append, List.nil_append, primary, show t.kind = .int from hw]
      rfl
  | nullable hq hty =>
    obtain ⟨t, us, rfl, rfl, hus⟩ := words_eq_cons.mp hpre
    simp only [List.cons_append, primary, show t.kind = .question from hq,
      complete_basic hinner horderly true hty hus hclear]
    rfl
  | basic hty =>
    have hbasic := complete_basic hinner horderly false hty hpre hclear
    obtain ⟨w, vs, rfl, hw⟩ := hty.starts
    obtain ⟨t, us, rfl, rfl, -⟩ := words_eq_cons.mp hpre
    rw [List.cons_append] at hbasic ⊢
    simp only [Lexeme.word_kind, List.mem_cons, List.not_mem_nil, or_false] at hw
    -- each of the six kinds a basic type begins with leads to the same branch
    rcases hw with hw | hw | hw | hw | hw | hw <;> simp only [primary, hw, hbasic]

/-- An atomic type whose brackets are spelled so far is read up to the next of them. -/
theorem atomic_of_spelled (hinner : inner.Complete Inner) (horderly : Orderly Inner) {ty : TypeExpr}
    {js : List Joint} (h : SpelledSuffixed Inner ty ws js) (hpre : words pre = ws)
    (hclear : Clear js (words rest)) : atomic inner (pre ++ rest) = suffixes ty rest := by
  -- induction on the pairs of brackets, the last of which stands next to `rest`
  induction h generalizing pre rest with
  | plain hty =>
    simp only [atomic, complete_primary hinner horderly hty hpre hclear]
    rfl
  | @array ty _ _ _ js _ hjs hl hr ih =>
    obtain ⟨us, vs, rfl, hus, hvs⟩ := words_eq_append.mp hpre
    obtain ⟨l, vs', rfl, rfl, hvs'⟩ := words_eq_cons.mp hvs
    obtain ⟨r, rfl, rfl⟩ := words_eq_singleton.mp hvs'
    have hl : l.kind = .lbrack := hl
    have hrest : Clear js (words (l :: r :: rest)) :=
      clear_cons_of_not_mem _ (by simpa [hl] using hjs) (by simp [hl])
    have hread := ih hus hrest
    rw [List.append_assoc, List.cons_append, List.cons_append, List.nil_append, hread]
    simp only [suffixes, hl, show r.kind = .rbrack from hr, if_true]

/-- A member of a union or an intersection is read as spelled where no bracket follows. -/
theorem complete_atomic (hinner : inner.Complete Inner) (horderly : Orderly Inner) :
    (atomic inner).Complete (SpelledAtomic Inner) := by
  intro ty ws js h pre rest hpre hclear
  cases h with
  | mk hty =>
    rw [clear_cons_left, Joint.meets_words] at hclear
    rw [atomic_of_spelled hinner horderly hty hpre hclear.2]
    cases rest with
    | nil => rfl
    | cons t rest =>
      have ht : t.kind ≠ .lbrack := by simpa using hclear.1
      unfold suffixes
      rw [if_neg ht]

/-! ## Section 4: Unions and intersections -/

/-- The other members begin with the operator and a word that starts a type. -/
theorem SpelledMembers.starts {operator : Kind} {joint : Joint} {tys : List TypeExpr}
    {js : List Joint} (h : SpelledMembers Inner operator joint tys ws js) :
    ∃ o vs, ws = o :: vs ∧ o.kind = operator ∧ ∃ w us, vs = w :: us ∧ w.kind.startsType = true := by
  cases h with
  | last ho hty => exact ⟨_, _, rfl, ho, hty.starts⟩
  | cons ho hty _ _ =>
    obtain ⟨w, us, rfl, hw⟩ := hty.starts
    exact ⟨_, _, rfl, ho, w, _, rfl, hw⟩

theorem SpelledMembers.length_le {operator : Kind} {joint : Joint} {tys : List TypeExpr}
    {js : List Joint} (h : SpelledMembers Inner operator joint tys ws js) :
    tys.length ≤ ws.length := by
  induction h with
  | last => simp
  | cons _ _ _ _ ih => simp only [List.length_cons, List.length_append]; omega

theorem length_members {operator : Kind} {joint : Joint} {tys : List TypeExpr} {js : List Joint}
    (h : SpelledMembers Inner operator joint tys ws js) (hpre : words pre = ws)
    (rest : List Lexeme) : tys.length ≤ (pre ++ rest).length := by
  have hlength := h.length_le
  rw [← hpre, Lexeme.length_words] at hlength
  rw [List.length_append]
  omega

theorem unionTail_of_clear {atom : Reader TypeExpr} {ts : List Lexeme}
    (h : (Joint.word .bar).meets (words ts) = false) (n : Nat) :
    unionTail atom n ts = .ok ([], ts) := by
  rw [Joint.meets_words] at h
  cases n with
  | zero => rfl
  | succ n => simp only [unionTail, skip_of_at? h]

/-- Where no type follows the `&`, nothing is read, and what is drawn up already is left as it is. -/
theorem intersectionTail_of_clear {atom : Reader TypeExpr} {ts : List Lexeme}
    (h : Joint.amp.meets (words ts) = false) (n : Nat) :
    intersectionTail atom n ts = .ok ([], ts) := by
  match n, ts with
  | 0, _ => rfl
  | _ + 1, [] => rfl
  | _ + 1, [_] => rfl
  | _ + 1, t :: u :: ts =>
    simp only [intersectionTail]
    split
    · next ht =>
      obtain ⟨hstart, hgap⟩ : u.kind.startsType = false ∧ u.gap = [] := by
        simpa [Joint.meets, ht] using h
      simp [hstart, Lexeme.closeUp_eq_self hgap]
    · rfl

/-- The other members of a union are read as spelled. -/
theorem unionTail_of_spelled {atom : Reader TypeExpr} (hatom : atom.Complete (SpelledAtomic Inner))
    {tys : List TypeExpr} {js : List Joint}
    (h : SpelledMembers Inner .bar (.word .bar) tys ws js) {n : Nat} (hn : tys.length ≤ n)
    (hpre : words pre = ws) (hclear : Clear js (words rest)) :
    unionTail atom n (pre ++ rest) = .ok (tys, rest) := by
  induction h generalizing n pre with
  | last ho hty =>
    obtain ⟨o, us, rfl, rfl, hus⟩ := words_eq_cons.mp hpre
    rw [clear_cons_left] at hclear
    obtain ⟨n, rfl⟩ := Nat.exists_eq_add_one.mpr hn
    simp only [List.cons_append, unionTail, skip_cons (show o.kind = .bar from ho),
      hatom hty hus hclear.2, ok_bind, unionTail_of_clear hclear.1]
    rfl
  | @cons _ ty tys _ _ js _ ho hty hjs htys ih =>
    obtain ⟨o, us, rfl, rfl, hus⟩ := words_eq_cons.mp hpre
    obtain ⟨us', vs, rfl, hus', hvs⟩ := words_eq_append.mp hus
    obtain ⟨n, rfl⟩ := Nat.exists_eq_add_one.mpr (Nat.lt_of_lt_of_le (Nat.succ_pos _) hn)
    -- a member is not gone on with by the operator of the next one
    have hnext : Clear js (words (vs ++ rest)) := by
      obtain ⟨w, xs, rfl, hw, -⟩ := htys.starts
      rw [Lexeme.words_append, hvs]
      exact clear_cons_of_not_mem _ (by rwa [hw]) (by simp [hw])
    have hothers := ih (Nat.le_of_succ_le_succ hn) hvs hclear
    simp only [List.cons_append, List.append_assoc, unionTail,
      skip_cons (show o.kind = .bar from ho), hatom hty hus' hnext, ok_bind, hothers]
    rfl

/-- A type that does not itself go on with an `&` is clear of the next member. -/
theorem clear_members {js ks : List Joint} (hjs : js ⊆ Joint.ofType) (hamp : .amp ∉ js)
    {tys : List TypeExpr} (h : SpelledMembers Inner .amp .amp tys ws ks) (hpre : words pre = ws)
    (rest : List Lexeme) : Clear js (words (pre ++ rest)) := by
  obtain ⟨o, vs, rfl, ho, -⟩ := h.starts
  rw [Lexeme.words_append, hpre]
  intro j hj
  cases j with
  | word kind =>
    have : o.kind ≠ kind := by
      rintro rfl
      simpa [ho, Joint.ofType] using hjs hj
    simpa [Joint.meets] using this
  | amp => exact absurd hj hamp

/-- The other members of an intersection are read as spelled. -/
theorem intersectionTail_of_spelled {atom : Reader TypeExpr}
    (hatom : atom.Complete (SpelledAtomic Inner)) (horderly : Orderly Inner) {tys : List TypeExpr}
    {js : List Joint} (h : SpelledMembers Inner .amp .amp tys ws js) {n : Nat} (hn : tys.length ≤ n)
    (hpre : words pre = ws) (hclear : Clear js (words rest)) :
    intersectionTail atom n (pre ++ rest) = .ok (tys, rest) := by
  induction h generalizing n pre with
  | last ho hty =>
    obtain ⟨o, us, rfl, rfl, hus⟩ := words_eq_cons.mp hpre
    rw [clear_cons_left] at hclear
    obtain ⟨n, rfl⟩ := Nat.exists_eq_add_one.mpr hn
    have hread := hatom hty hus hclear.2
    -- the reader looks at the lexeme behind the ampersand, which starts the member
    obtain ⟨w, vs, rfl, hw⟩ := hty.starts
    obtain ⟨t, us', rfl, rfl, -⟩ := words_eq_cons.mp hus
    rw [List.cons_append] at hread
    simp only [List.cons_append, intersectionTail, show o.kind = .amp from ho, if_true,
      show t.kind.startsType = true from hw, hread, ok_bind, intersectionTail_of_clear hclear.1]
    rfl
  | @cons _ ty tys _ _ js _ ho hty hjs htys ih =>
    obtain ⟨o, us, rfl, rfl, hus⟩ := words_eq_cons.mp hpre
    obtain ⟨us', vs, rfl, hus', hvs⟩ := words_eq_append.mp hus
    obtain ⟨n, rfl⟩ := Nat.exists_eq_add_one.mpr (Nat.lt_of_lt_of_le (Nat.succ_pos _) hn)
    have hread := hatom hty hus' (clear_members (hty.joints horderly) hjs htys hvs rest)
    have hothers := ih (Nat.le_of_succ_le_succ hn) hvs hclear
    obtain ⟨w, xs, rfl, hw⟩ := hty.starts
    obtain ⟨t, us'', rfl, rfl, -⟩ := words_eq_cons.mp hus'
    rw [List.cons_append] at hread
    simp only [List.cons_append, List.append_assoc, intersectionTail, show o.kind = .amp from ho,
      if_true, show t.kind.startsType = true from hw, hread, ok_bind, hothers]
    rfl

/-- A type is read as spelled when the types inside it are. -/
theorem complete_compound (hinner : inner.Complete Inner) (horderly : Orderly Inner) :
    (compound inner).Complete (SpelledCompound Inner) := by
  intro ty ws js h pre rest hpre hclear
  have hatomic := complete_atomic hinner horderly
  cases h with
  | single hty =>
    rw [clear_cons_left, clear_cons_left] at hclear
    obtain ⟨hbar, hamp, hclear⟩ := hclear
    have hread := hatomic hty hpre hclear
    rw [Joint.meets_words] at hbar
    simp only [compound, hread, ok_bind, hbar, intersectionTail_of_clear hamp]
    rfl
  | @union ty tys _ _ js _ hty hjs htys =>
    obtain ⟨us, vs, rfl, hus, hvs⟩ := words_eq_append.mp hpre
    obtain ⟨o, xs, hxs, ho, -⟩ := htys.starts
    -- the first member borders on the operator
    have hnext : Clear js (words (vs ++ rest)) := by
      rw [Lexeme.words_append, hvs, hxs]
      exact clear_cons_of_not_mem _ (by rwa [ho]) (by simp [ho])
    have hat : at? .bar (vs ++ rest) = true := by
      rw [← Joint.meets_words, Lexeme.words_append, hvs, hxs]
      simp [Joint.meets, ho]
    have hothers := unionTail_of_spelled hatomic htys (length_members htys hvs rest) hvs hclear
    rw [List.append_assoc]
    simp only [compound, hatomic hty hus hnext, ok_bind, hat, if_true, hothers]
    rfl
  | @intersection ty tys _ _ js _ hty hjs htys =>
    obtain ⟨us, vs, rfl, hus, hvs⟩ := words_eq_append.mp hpre
    have hnext := clear_members (hty.joints horderly) hjs htys hvs rest
    have hat : at? .bar (vs ++ rest) = false := by
      obtain ⟨o, xs, hxs, ho, -⟩ := htys.starts
      rw [← Joint.meets_words, Lexeme.words_append, hvs, hxs]
      simp [Joint.meets, ho]
    have hothers := intersectionTail_of_spelled hatomic horderly htys
      (length_members htys hvs rest) hvs hclear
    have hsome : tys.isEmpty = false := by
      cases htys <;> rfl
    rw [List.append_assoc]
    simp only [compound, hatomic hty hus hnext, ok_bind, hat, hothers, hsome]
    rfl

end Inner

theorem complete_readerTo (depth : Nat) : (readerTo depth).Complete (Spelled depth) := by
  induction depth with
  | zero => intro ty ws js h; exact h.elim
  | succ depth ih => exact complete_compound ih (orderly_spelled depth)

end TypeExpr

end Docblock
