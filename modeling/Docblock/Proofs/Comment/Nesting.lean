import Docblock.Proofs.Comment.Canonical
import Docblock.Proofs.Comment.Independence
import Docblock.Proofs.Comment.Method
import Docblock.Proofs.TypeExpr.Nesting

/-!
# How deep the types of a comment nest

A type in a comment has as much room as a type that stands alone, whatever types stand in front of
it.  The fields of a tag are read if all types in them fit, and else the tag is refused for the
nesting of the first that does not.

## Contents

1. `Tag.types`: the types of a tag, and the depth of a spelling of its fields.
2. `Tag.refuse_readStructured`: fields with a type that does not fit.
3. `Tag.Place`: a type in a tag, and another one in its place.
4. `Tag.read_row`: a printed tag on its line.
5. `Comment.parse_nesting`: types in comments.
-/

namespace Docblock

open Lexeme (words words_eq_cons words_eq_singleton words_eq_append)
open Reader
open Text (Blanks)
open TypeExpr
open Word (source scan)

/-! ## Section 1: The types of a tag -/

namespace Tag

/-- The types of a tag, without those inside their brackets. -/
def types : Tag → List TypeExpr
  | .param p _ => [p.ty]
  | .typed _ ty _ | .property _ ty _ _ | .var ty _ _ | .alias _ ty _ => [ty]
  | .method m _ => m.result.toList ++ m.params.map (·.ty)
  | .template _ bound _ => bound.toList
  | .other .. => []

variable {depth depth' : Nat} {keyword : Keyword} {mk : Text → Tag} {ws : List Word}
variable {stop : List Word → Prop}

theorem signature_of_frames_le {ps : List (Param TypeExpr)}
    (h : SpelledSignature (Spelled depth) ps ws) (hfits : ∀ u ∈ ps.map (·.ty), u.frames ≤ depth') :
    SpelledSignature (Spelled depth') ps ws :=
  h.rests.holds _ fun u hu _ _ hspelled => spelled_of_frames_le hspelled (hfits u hu)

theorem frames_le_of_signature {ps : List (Param TypeExpr)}
    (h : SpelledSignature (Spelled depth) ps ws) : ∀ u ∈ ps.map (·.ty), u.frames ≤ depth := by
  intro u hu
  obtain ⟨_, _, hspelled⟩ := h.rests.spelled u hu
  exact frames_le_of_spelled hspelled

theorem spelled_of_forall_mem_singleton {ty : TypeExpr} {js : List Joint}
    (h : Spelled depth ty ws js) (hfits : ∀ u ∈ [ty], u.frames ≤ depth') :
    Spelled depth' ty ws js :=
  spelled_of_frames_le h (hfits ty (List.mem_singleton_self ty))

theorem frames_named (n : Name) : (TypeExpr.named n).frames = 1 := by
  rw [frames_eq, bracketed]
  rfl

/-- The types of fields nest to the depth of their spelling at most. -/
theorem frames_le_of_fields (h : SpelledFields depth keyword mk ws stop) (d : Text) :
    ∀ u ∈ (mk d).types, u.frames ≤ depth := by
  -- one case per tag; each has at most one type, but a method
  cases h with
  | param hp =>
    cases hp with
    | mk hty => exact List.forall_mem_singleton.mpr (frames_le_of_spelled hty)
  | typed hty | property hty | var hty | varNamed hty | bound _ _ hty | «alias» _ _ hty =>
    exact List.forall_mem_singleton.mpr (frames_le_of_spelled hty)
  | template => exact nofun
  | method hm =>
    cases hm with
    | @named isStatic _ _ _ _ n _ _ _ _ hn _ _ _ _ hps =>
      refine List.forall_mem_append.mpr ⟨fun u hu => ?_, frames_le_of_signature hps⟩
      have hone := frames_le_of_spelled hn
      cases isStatic with
      | false => cases hu
      | true =>
        obtain rfl := List.mem_singleton.mp hu
        rwa [frames_named] at hone ⊢
    | typed _ hty _ _ _ hps =>
      exact List.forall_mem_append.mpr
        ⟨List.forall_mem_singleton.mpr (frames_le_of_spelled hty), frames_le_of_signature hps⟩

/-- Fields are spelled at every depth that their types fit into. -/
theorem fields_of_frames_le (h : SpelledFields depth keyword mk ws stop) {d : Text}
    (hfits : ∀ u ∈ (mk d).types, u.frames ≤ depth') (hpos : 0 < depth') :
    SpelledFields depth' keyword mk ws stop := by
  -- one case per tag, each along its fields
  cases h with
  | param hp =>
    cases hp with
    | mk hty hb hclear => exact .param (.mk (spelled_of_forall_mem_singleton hty hfits) hb hclear)
  | typed hty => exact .typed (spelled_of_forall_mem_singleton hty hfits)
  | property hty hv => exact .property (spelled_of_forall_mem_singleton hty hfits) hv
  | var hty => exact .var (spelled_of_forall_mem_singleton hty hfits)
  | varNamed hty hv => exact .varNamed (spelled_of_forall_mem_singleton hty hfits) hv
  | template hn => exact .template hn
  | bound hn hb hty => exact .bound hn hb (spelled_of_forall_mem_singleton hty hfits)
  | «alias» hn he hty => exact .alias hn he (spelled_of_forall_mem_singleton hty hfits)
  | method hm =>
    obtain ⟨hresult, hparams⟩ := List.forall_mem_append.mp hfits
    cases hm with
    | @named _ _ _ _ _ n _ _ _ hs hn hname hfirst hjs hl hps =>
      have hone : (TypeExpr.named n).frames ≤ depth' := (frames_named n).trans_le hpos
      exact .method (.named hs (spelled_of_frames_le hn hone) hname hfirst hjs hl
        (signature_of_frames_le hps hparams))
    | typed hs hty hfirst hn hl hps =>
      exact .method (.typed hs (spelled_of_forall_mem_singleton hty hresult) hfirst hn hl
        (signature_of_frames_le hps hparams))

/-! ## Section 2: Types that do not fit -/

variable {pre rest : List Lexeme}

/-- A signature with a parameter that does not fit is refused for its nesting. -/
theorem refuse_signature {ps : List (Param TypeExpr)} (h : SpelledSignature (Spelled depth) ps ws)
    (hdeep : ∃ u ∈ ps.map (·.ty), maxDepth < u.frames) (hpre : words pre = ws) :
    TooDeep (signature TypeExpr.reader (pre ++ rest)) := by
  have hmore : SpelledSignature (Spelled (max maxDepth depth)) ps ws :=
    signature_of_frames_le h fun u hu =>
      (frames_le_of_signature h u hu).trans (Nat.le_max_right _ _)
  have hread := signature_of_spelled (complete_readerTo _) (orderly_spelled _) hmore hpre rest
  have hfollows := signature_agrees (readerTo_agrees (Nat.le_max_left maxDepth depth))
    (Similar.refl (words (pre ++ rest)))
  rw [hread] at hfollows
  -- the reader with less room does the same, or complains of the depth
  rcases hfollows.eq_ok_or_deep with ⟨rest', hok⟩ | hrefused
  · -- what is read fits
    obtain ⟨vs, -, hfits⟩ := sound_signature (sound_readerTo maxDepth) hok
    obtain ⟨u, hu, hdeep⟩ := hdeep
    exact absurd (frames_le_of_signature hfits u hu) (Nat.not_le.mpr hdeep)
  · exact hrefused

/-- A method with a type that does not fit is refused. -/
theorem refuse_readMethod {m : Method} (h : SpelledMethod depth m ws)
    (hdeep : ∃ u ∈ m.result.toList ++ m.params.map (·.ty), maxDepth < u.frames)
    (hpre : words pre = ws) : TooDeep (readMethod (pre ++ rest)) := by
  have horderly := orderly_spelled depth
  cases h with
  | @named isStatic _ _ _ _ n name js ps hs hn hname hfirst hjs hl hps =>
    obtain ⟨ss, us, rfl, hss, hus⟩ := words_eq_append.mp hpre
    obtain ⟨ws', vs, rfl, hws', hvs⟩ := words_eq_append.mp hus
    obtain ⟨l, vs', rfl, rfl, hvs'⟩ := words_eq_cons.mp hvs
    have hl : l.kind = .lparen := hl
    -- a name fits, and so does the word that stands for the result
    have hone (n : Name) : (TypeExpr.named n).frames ≤ maxDepth :=
      (frames_named n).trans_le (by decide)
    have hdeep : ∃ u ∈ ps.map (·.ty), maxDepth < u.frames := by
      obtain ⟨u, hu, hdeep⟩ := hdeep
      refine ⟨u, (List.mem_append.mp hu).resolve_left fun hu => ?_, hdeep⟩
      cases isStatic with
      | false => cases hu
      | true =>
        obtain rfl := List.mem_singleton.mp hu
        exact absurd (hone _) (Nat.not_le.mpr hdeep)
    have hskip := skip_static hs hss hws' (ne_nil_of_starts (horderly.starts hn)) hfirst
      (l :: (vs' ++ rest))
    have hrest : Clear js (words (l :: (vs' ++ rest))) :=
      clear_cons_of_not_mem _ (by simpa [hl] using hjs) (by simp [hl])
    have hread := (reader_of_spelled hn hws' hrest).1 (hone n)
    rw [List.append_assoc, List.append_assoc, List.cons_append]
    simp only [readMethod, hskip, hread, ok_bind, methodHead_named hname hl, expect_cons hl]
    exact (refuse_signature hps hdeep hvs').bind _
  | @typed isStatic _ _ _ _ _ ty js ps hs hty hfirst hn hl hps =>
    obtain ⟨ss, us, rfl, hss, hus⟩ := words_eq_append.mp hpre
    obtain ⟨ws', vs, rfl, hws', hvs⟩ := words_eq_append.mp hus
    obtain ⟨n, vs', rfl, rfl, hvs'⟩ := words_eq_cons.mp hvs
    obtain ⟨l, vs'', rfl, rfl, hvs''⟩ := words_eq_cons.mp hvs'
    have hl : l.kind = .lparen := hl
    have hn : n.kind = .ident := hn
    have hskip := skip_static hs hss hws' (ne_nil_of_starts (horderly.starts hty)) hfirst
      (n :: l :: (vs'' ++ rest))
    have hrest : Clear js (words (n :: l :: (vs'' ++ rest))) :=
      clear_cons (horderly.joints hty) _ (by simp [hn, Joint.ofType]) (by simp [hn])
    obtain ⟨hread, hrefuse⟩ := reader_of_spelled hty hws' hrest
    rw [List.append_assoc, List.append_assoc, List.cons_append, List.cons_append, readMethod, hskip]
    -- either the result is too deep, or one of the parameters is
    by_cases hresult : maxDepth < ty.frames
    · exact (hrefuse hresult).bind _
    · have hdeep : ∃ u ∈ ps.map (·.ty), maxDepth < u.frames := by
        simpa [hresult] using hdeep
      simp only [hread (Nat.not_lt.mp hresult), ok_bind, methodHead_typed hn, expect_cons hl]
      exact (refuse_signature hps hdeep hvs'').bind _

/-- Fields are refused for the nesting of the first type in them that does not fit. -/
theorem refuse_readStructured (h : SpelledFields depth keyword mk ws stop) {d : Text}
    (hdeep : ∃ u ∈ (mk d).types, maxDepth < u.frames) (hpre : words pre = ws)
    (hstop : stop (words rest)) : TooDeep (readStructured keyword (pre ++ rest)) := by
  have horderly := orderly_spelled depth
  have hread {ty : TypeExpr} {vs : List Word} {js : List Joint} (hty : Spelled depth ty vs js)
      (hdeep : ∃ u ∈ [ty], maxDepth < u.frames) {us rest : List Lexeme} (hus : words us = vs)
      (hclear : Clear js (words rest)) : TooDeep (TypeExpr.reader (us ++ rest)) :=
    (reader_of_spelled hty hus hclear).2 (by simpa using hdeep)
  have hvar {ty : TypeExpr} {vs : List Word} {js : List Joint} (hty : Spelled depth ty vs js)
      {v : Lexeme} (hv : v.kind = .var) : Clear js (words (v :: rest)) :=
    clear_cons (horderly.joints hty) _ (by simp [hv, Joint.ofType]) (by simp [hv])
  -- one case per tag: the reader fails at the type, before what follows it
  cases h with
  | param hp =>
    cases hp with
    | mk hty hb hclear =>
      obtain ⟨us, vs, rfl, hus, hvs⟩ := words_eq_append.mp hpre
      rw [List.append_assoc, readStructured]
      exact ((hread hty hdeep hus (clear_binder hb hclear hvs rest)).bind _).bind _
  | typed hty => exact (hread hty hdeep hpre hstop).bind _
  | property hty hv =>
    obtain ⟨us, vs, rfl, hus, hvs⟩ := words_eq_append.mp hpre
    obtain ⟨v, rfl, rfl⟩ := words_eq_singleton.mp hvs
    rw [List.append_assoc]
    exact (hread hty hdeep hus (hvar hty hv)).bind _
  | method hm => exact (refuse_readMethod hm hdeep hpre).bind _
  | var hty =>
    rw [clear_cons_left] at hstop
    exact (hread hty hdeep hpre hstop.2).bind _
  | varNamed hty hv =>
    obtain ⟨us, vs, rfl, hus, hvs⟩ := words_eq_append.mp hpre
    obtain ⟨v, rfl, rfl⟩ := words_eq_singleton.mp hvs
    rw [List.append_assoc]
    exact (hread hty hdeep hus (hvar hty hv)).bind _
  | template =>
    -- a template without a bound has no type in it
    obtain ⟨u, hu, -⟩ := hdeep
    cases hu
  | bound hn hb hty =>
    obtain ⟨n, us, rfl, rfl, hus⟩ := words_eq_cons.mp hpre
    obtain ⟨b, us', rfl, rfl, hus'⟩ := words_eq_cons.mp hus
    have hbound : isBoundWord b = true := hb
    simp only [List.cons_append, readStructured, expect_cons (show n.kind = .ident from hn),
      ok_bind, List.head?_cons, Option.any_some, hbound, if_true, List.tail_cons]
    exact (hread hty hdeep hus' hstop).bind _
  | @«alias» _ e _ _ ty js hn he hty =>
    obtain ⟨n, us, rfl, rfl, hus⟩ := words_eq_cons.mp hpre
    obtain ⟨es, us', rfl, hes, hus'⟩ := words_eq_append.mp hus
    have hskip : skip .equals (es ++ (us' ++ rest)) = (e, us' ++ rest) := by
      refine skip_mark he hes fun _ => ?_
      -- a type does not begin with an equals sign
      obtain ⟨w, vs, rfl, hw⟩ := horderly.starts hty
      obtain ⟨t, us'', rfl, rfl, -⟩ := words_eq_cons.mp hus'
      have ht : t.kind ≠ .equals := by
        intro h
        simp [h, Kind.startsType] at hw
      simpa using ht
    rw [List.cons_append, List.append_assoc]
    simp only [readStructured, expect_cons (show n.kind = .ident from hn), ok_bind, hskip]
    exact (hread hty hdeep hus' hstop).bind _

/-! ## Section 3: Types in their places -/

/-- A place for a type in a tag, with what else there is but for the description. -/
inductive Place where
  | param (byRef variadic : Bool) (name : Option Text)
  | typed (keyword : TypedKeyword)
  | property (access : Access) (var : Text)
  | result (isStatic : Bool) (name : Text) (params : List (Param TypeExpr))
  | methodParam (isStatic : Bool) (result : Option TypeExpr) (name : Text)
      (before : List (Param TypeExpr)) (param : Param Unit) (after : List (Param TypeExpr))
  | var (name : Option Text)
  | bound (name : Text)
  | alias (name : Text)
  deriving Repr

namespace Place

/-- The tag that has a type in the given place. -/
def fill : Place → TypeExpr → Text → Tag
  | .param byRef variadic name, ty => .param ⟨ty, byRef, variadic, name, none⟩
  | .typed keyword, ty => .typed keyword ty
  | .property access v, ty => .property access ty v
  | .result isStatic name params, ty => .method ⟨isStatic, some ty, name, params⟩
  | .methodParam isStatic r name before p after, ty =>
    .method ⟨isStatic, r, name, before ++ ⟨ty, p.byRef, p.variadic, p.name, p.default⟩ :: after⟩
  | .var name, ty => .var ty name
  | .bound name, ty => .template name (some ty)
  | .alias name, ty => .alias name ty

/-- A method that is itself called `static` is read with the result `static` and with no other. -/
def IsOpen : Place → Prop
  | .result _ name _ => name ≠ "static".toList
  | _ => True

instance (p : Place) : Decidable p.IsOpen := by
  unfold IsOpen
  split <;> infer_instance

end Place

/-- A type has a spelling of its own, one that is not taken for a mark. -/
def Writable (depth : Nat) (ty : TypeExpr) : Prop :=
  ∃ ws js, Spelled depth ty ws js ∧ Genuine ws ∧ ∀ w ∈ ws.head?, w.kind ≠ .static

/-- A type is spelled in its place, and any other can be. -/
structure Exchanges (depth : Nat) (ty : TypeExpr) (P : TypeExpr → Prop) : Prop where
  spelled : ∃ ws js, Spelled depth ty ws js ∧ Genuine ws
  put : ∀ u, Writable depth u → P u

theorem Exchanges.imp {ty : TypeExpr} {P Q : TypeExpr → Prop} (h : Exchanges depth ty P)
    (hPQ : ∀ u, P u → Q u) : Exchanges depth ty Q :=
  ⟨h.spelled, fun u hu => hPQ u (h.put u hu)⟩

/-- An item between brackets can be put in the place of another. -/
theorem exists_item {α : Type} {Item : Grammar α} {close : Kind} {before after : List α} {x : α}
    (h : SpelledItems Item close (before ++ x :: after) ws) (hws : Genuine ws) :
    ∃ vs js, Item x vs js ∧ Genuine vs ∧ ∀ {x' : α} {vs' : List Word} {js' : List Joint},
      Item x' vs' js' → Genuine vs' →
        ∃ ws', SpelledItems Item close (before ++ x' :: after) ws' ∧ Genuine ws' := by
  generalize hxs : before ++ x :: after = xs at h
  -- along the list; the exchanged item is the first one, or among the others
  induction h generalizing before with
  | last h hc =>
    obtain ⟨rfl, hx⟩ : before = [] ∧ x :: after = [_] := by
      simpa [List.append_eq_singleton_iff] using hxs
    obtain ⟨rfl, rfl⟩ := List.cons.inj hx
    obtain ⟨hws, hend⟩ := genuine_append.mp hws
    exact ⟨_, _, h, hws, fun h' hvs => ⟨_, .last h' hc, genuine_append.mpr ⟨hvs, hend⟩⟩⟩
  | trailing h hm hc =>
    obtain ⟨rfl, hx⟩ : before = [] ∧ x :: after = [_] := by
      simpa [List.append_eq_singleton_iff] using hxs
    obtain ⟨rfl, rfl⟩ := List.cons.inj hx
    obtain ⟨hws, hend⟩ := genuine_append.mp hws
    exact ⟨_, _, h, hws, fun h' hvs => ⟨_, .trailing h' hm hc, genuine_append.mpr ⟨hvs, hend⟩⟩⟩
  | cons h hm hxs' ih =>
    obtain ⟨hws, hend⟩ := genuine_append.mp hws
    cases before with
    | nil =>
      obtain ⟨rfl, rfl⟩ := List.cons.inj hxs
      exact ⟨_, _, h, hws, fun h' hvs => ⟨_, .cons h' hm hxs', genuine_append.mpr ⟨hvs, hend⟩⟩⟩
    | cons y before =>
      obtain ⟨rfl, hrest⟩ := List.cons.inj hxs
      obtain ⟨hcomma, hend⟩ := genuine_cons.mp hend
      obtain ⟨vs, js, hitem, hvs, hput⟩ := ih hend hrest
      refine ⟨vs, js, hitem, hvs, fun h' hvs' => ?_⟩
      obtain ⟨ws', hws', hgenuine⟩ := hput h' hvs'
      exact ⟨_, .cons h hm hws', genuine_append.mpr ⟨hws, genuine_cons.mpr ⟨hcomma, hgenuine⟩⟩⟩

/-- The marks and the name of a parameter can follow any type, once they are drawn up. -/
theorem exists_binder {b : Bool × Bool × Text} (h : SpelledBinder b ws) (hws : Genuine ws) :
    ∃ vs, SpelledBinder b vs ∧ Genuine vs ∧
      ∀ {js : List Joint}, js ⊆ Joint.ofType → Clear js vs := by
  obtain ⟨byRef, variadic, name⟩ := b
  refine ⟨ws.map Word.flush, (respell_binder h hws).1, ?_, fun hjs => clear_flush_binder hjs h⟩
  intro v hv
  obtain ⟨w, hw, rfl⟩ := List.mem_map.mp hv
  exact hws w hw

/-- The type of a parameter can be exchanged; the words behind it stay. -/
theorem exchanges_param {p : Param TypeExpr} {js : List Joint}
    (h : SpelledParam (Spelled depth) p ws js) (hws : Genuine ws) :
    Exchanges depth p.ty fun u => ∃ vs ks, SpelledParam (Spelled depth) { p with ty := u } vs ks ∧
      Genuine vs := by
  have horderly := orderly_spelled depth
  cases h with
  -- the type alone
  | bare hty => exact ⟨⟨_, _, hty, hws⟩, fun u ⟨_, _, hu, hvs, _⟩ => ⟨_, _, .bare hu, hvs⟩⟩
  -- behind the type stays the name
  | named hty hb =>
    obtain ⟨hws, hbs⟩ := genuine_append.mp hws
    obtain ⟨bs, hb, hbs, hclear⟩ := exists_binder hb hbs
    exact ⟨⟨_, _, hty, hws⟩, fun u ⟨_, _, hu, hvs, _⟩ => ⟨_, _,
      .named hu hb (hclear (horderly.joints hu)), genuine_append.mpr ⟨hvs, hbs⟩⟩⟩
  | default hty hb _ he hd =>
    obtain ⟨hws, hend⟩ := genuine_append.mp hws
    obtain ⟨hws, hbs⟩ := genuine_append.mp hws
    obtain ⟨bs, hb, hbs, hclear⟩ := exists_binder hb hbs
    exact ⟨⟨_, _, hty, hws⟩, fun u ⟨_, _, hu, hvs, _⟩ => ⟨_, _,
      .default hu hb (hclear (horderly.joints hu)) he hd,
      genuine_append.mpr ⟨genuine_append.mpr ⟨hvs, hbs⟩, hend⟩⟩⟩

/-- So can the type of one parameter among others. -/
theorem exchanges_signature {before after : List (Param TypeExpr)} {p : Param TypeExpr}
    (h : SpelledSignature (Spelled depth) (before ++ p :: after) ws) (hws : Genuine ws) :
    Exchanges depth p.ty fun u => ∃ vs,
      SpelledSignature (Spelled depth) (before ++ { p with ty := u } :: after) vs ∧ Genuine vs := by
  generalize hps : before ++ p :: after = ps at h
  cases h with
  -- there is a parameter to exchange
  | empty => simp at hps
  | params h =>
    subst hps
    obtain ⟨vs, js, hp, hvs, hput⟩ := exists_item h hws
    refine (exchanges_param hp hvs).imp fun u ⟨vs', ks, hu, hvs'⟩ => ?_
    obtain ⟨ws', hws', hgenuine⟩ := hput hu hvs'
    exact ⟨ws', .params hws', hgenuine⟩

/-- The word of a single name other than `static`. -/
theorem exists_word_of_named {n : Name} {name : Text} {js : List Joint}
    (h : Spelled depth (.named n) ws js) (hname : n.single? = some name)
    (hne : name ≠ "static".toList) : ∃ w : Word, ws = [w] ∧ w.kind = .ident ∧ w.text = name := by
  cases depth with
  | zero => exact h.elim
  | succ depth =>
  -- a name alone has none of what a type can have besides
  obtain ⟨_, _, hn⟩ : ∃ b ks, SpelledHead (Spelled depth) (.named n, b) ws ks := by
    cases h with
    | single h => cases h with
      | mk h => cases h with
        | plain h => cases h with
          | basic h => cases h with
            | plain h => cases h with
              | closed h | plain h => exact ⟨_, _, h⟩
  cases hn with
  -- of the heads that are names, only one is not `static`
  | callable _ h => cases h
  | static => exact absurd (Option.some.inj hname).symm hne
  | named hn =>
    cases hn with
    | absolute => simp [Name.single?] at hname
    | relative hparts =>
      cases hparts with
      | last hw => exact ⟨_, rfl, hw, Option.some.inj hname⟩
      | cons _ _ hparts => cases hparts <;> cases hname

/-- The word `static` is a type at every depth that has room for one. -/
theorem spelled_static {u : TypeExpr} {us : List Word} {js : List Joint}
    (h : Spelled depth u us js) {w : Word} (hw : w.kind = .static) :
    ∃ ks, Spelled depth (.named .static) [w] ks := by
  cases depth with
  | zero => exact h.elim
  | succ depth => exact ⟨_, .single (.mk (.plain (.basic (.plain (.plain (.static hw))))))⟩

/-- A type in the signature of a method. -/
theorem exchanges_method {p : Place} (hp : p.IsOpen) {ty : TypeExpr} {m : Method} {d : Text}
    (h : SpelledMethod depth m ws) (hm : p.fill ty d = .method m d) (hws : Genuine ws) :
    Exchanges depth ty fun u => ∃ m' vs, p.fill u = .method m' ∧ SpelledMethod depth m' vs ∧
      Genuine vs := by
  cases h with
  | @named isStatic ss us xs l n name js ps hs hn hname hfirst hjs hl hps =>
    rw [genuine_append, genuine_append, genuine_cons] at hws
    obtain ⟨hss, hus, hparen, hxs⟩ := hws
    cases p with
    | result =>
      cases hs with
      | absent => cases hm
      | present hs =>
        cases hm
        -- the result was the mark, and a result in its place makes a name of what was one
        obtain ⟨w, rfl, hw, rfl⟩ := exists_word_of_named hn hname hp
        obtain ⟨ks, hstatic⟩ := spelled_static hn hs
        refine ⟨⟨_, ks, hstatic, hss⟩, fun u ⟨vs, _, hu, hvs, hfirst⟩ => ?_⟩
        refine ⟨_, _, rfl, .typed .absent hu (fun _ => hfirst) hw hl hps, ?_⟩
        exact genuine_append.mpr ⟨genuine_nil, genuine_append.mpr
          ⟨hvs, genuine_cons.mpr ⟨(genuine_cons.mp hus).1, genuine_cons.mpr ⟨hparen, hxs⟩⟩⟩⟩
    | methodParam =>
      cases hm
      refine (exchanges_signature hps hxs).imp fun u ⟨vs, hu, hvs⟩ => ?_
      refine ⟨_, _, rfl, .named hs hn hname hfirst hjs hl hu, ?_⟩
      exact genuine_append.mpr ⟨hss, genuine_append.mpr ⟨hus, genuine_cons.mpr ⟨hparen, hvs⟩⟩⟩
    | _ => cases hm
  -- with a result, the modifier stays as it is
  | @typed isStatic ss us xs n l ty js ps hs hty hfirst hn hl hps =>
    rw [genuine_append, genuine_append, genuine_cons, genuine_cons] at hws
    obtain ⟨hss, hus, hident, hparen, hxs⟩ := hws
    cases p with
    | result =>
      cases hm
      refine ⟨⟨_, _, hty, hus⟩, fun u ⟨vs, _, hu, hvs, hfirst⟩ => ?_⟩
      refine ⟨_, _, rfl, .typed hs hu (fun _ => hfirst) hn hl hps, ?_⟩
      exact genuine_append.mpr ⟨hss, genuine_append.mpr
        ⟨hvs, genuine_cons.mpr ⟨hident, genuine_cons.mpr ⟨hparen, hxs⟩⟩⟩⟩
    | methodParam =>
      cases hm
      refine (exchanges_signature hps hxs).imp fun u ⟨vs, hu, hvs⟩ => ?_
      refine ⟨_, _, rfl, .typed hs hty hfirst hn hl hu, ?_⟩
      exact genuine_append.mpr ⟨hss, genuine_append.mpr
        ⟨hus, genuine_cons.mpr ⟨hident, genuine_cons.mpr ⟨hparen, hvs⟩⟩⟩⟩
    | _ => cases hm

/-- A type in the fields of a tag. -/
theorem exchanges_fields {p : Place} (hp : p.IsOpen) {ty : TypeExpr} {d : Text}
    (h : SpelledFields depth keyword mk ws stop) (hmk : p.fill ty d = mk d) (hws : Genuine ws) :
    Exchanges depth ty fun u => ∃ vs stop', SpelledFields depth keyword (p.fill u) vs stop' ∧
      Genuine vs := by
  have horderly := orderly_spelled depth
  -- for each spelling of fields, only the place of its own kind makes such a tag
  cases h with
  | @param q _ _ hq =>
    cases p with
    | param =>
      cases hq with
      | mk hty hb =>
        cases hmk
        obtain ⟨hws, hbs⟩ := genuine_append.mp hws
        obtain ⟨bs, hb, hbs, hclear⟩ := exists_binder hb hbs
        exact ⟨⟨_, _, hty, hws⟩, fun u ⟨_, _, hu, hvs, _⟩ => ⟨_, _,
          .param (.mk hu hb (hclear (horderly.joints hu))), genuine_append.mpr ⟨hvs, hbs⟩⟩⟩
    | _ => cases hmk
  | typed hty =>
    cases p with
    | typed =>
      cases hmk
      exact ⟨⟨_, _, hty, hws⟩, fun u ⟨_, _, hu, hvs, _⟩ => ⟨_, _, .typed hu, hvs⟩⟩
    | _ => cases hmk
  | property hty hv =>
    cases p with
    | property =>
      cases hmk
      obtain ⟨hws, hvar⟩ := genuine_append.mp hws
      exact ⟨⟨_, _, hty, hws⟩, fun u ⟨_, _, hu, hvs, _⟩ => ⟨_, _, .property hu hv,
        genuine_append.mpr ⟨hvs, hvar⟩⟩⟩
    | _ => cases hmk
  | method hm =>
    refine (exchanges_method hp hm hmk hws).imp fun u ⟨m, vs, hfill, hu, hvs⟩ => ?_
    rw [hfill]
    exact ⟨_, _, .method hu, hvs⟩
  | var hty =>
    cases p with
    | var =>
      cases hmk
      exact ⟨⟨_, _, hty, hws⟩, fun u ⟨_, _, hu, hvs, _⟩ => ⟨_, _, .var hu, hvs⟩⟩
    | _ => cases hmk
  | varNamed hty hv =>
    cases p with
    | var =>
      cases hmk
      obtain ⟨hws, hvar⟩ := genuine_append.mp hws
      exact ⟨⟨_, _, hty, hws⟩, fun u ⟨_, _, hu, hvs, _⟩ => ⟨_, _, .varNamed hu hv,
        genuine_append.mpr ⟨hvs, hvar⟩⟩⟩
    | _ => cases hmk
  | template => cases p <;> cases hmk
  | bound hn hb hty =>
    cases p with
    | bound =>
      cases hmk
      obtain ⟨hname, hws⟩ := genuine_cons.mp hws
      obtain ⟨hof, hws⟩ := genuine_cons.mp hws
      exact ⟨⟨_, _, hty, hws⟩, fun u ⟨_, _, hu, hvs, _⟩ => ⟨_, _, .bound hn hb hu,
        genuine_cons.mpr ⟨hname, genuine_cons.mpr ⟨hof, hvs⟩⟩⟩⟩
    | _ => cases hmk
  | «alias» hn he hty =>
    cases p with
    | «alias» =>
      cases hmk
      obtain ⟨hname, hws⟩ := genuine_cons.mp hws
      obtain ⟨hes, hws⟩ := genuine_append.mp hws
      exact ⟨⟨_, _, hty, hws⟩, fun u ⟨_, _, hu, hvs, _⟩ => ⟨_, _, .alias hn he hu,
        genuine_cons.mpr ⟨hname, genuine_append.mpr ⟨hes, hvs⟩⟩⟩⟩
    | _ => cases hmk

/-- The type in a place is one of the types of the tag, between others that stay. -/
theorem Place.exists_types (p : Place) :
    ∃ before after, ∀ u d, (p.fill u d).types = before ++ u :: after := by
  cases p with
  | methodParam _ result _ before _ after =>
    refine ⟨result.toList ++ before.map (·.ty), after.map (·.ty), fun u d => ?_⟩
    simp [fill, types]
  | result _ _ ps => exact ⟨[], ps.map (·.ty), fun u d => rfl⟩
  | _ => exact ⟨[], [], fun u d => rfl⟩

/-! ## Section 4: Tags on their lines -/

/-- A description is empty or begins with a letter. -/
def Worded (d : Text) : Prop :=
  Text.Trimmed d ∧ ∀ c ∈ d.head?, c.isAlpha = true

/-- The kinds of words with which a type goes on begin with no letter. -/
theorem not_mem_of_isAlpha {k : Kind} {t : Text} (h : Token.Forms k t) {c : Char}
    (hc : t.head? = some c) (halpha : c.isAlpha = true) :
    .word k ∉ .word .var :: Joint.ofType ∧ k ≠ .amp := by
  have hsymbol {x : Text} (hx : k.symbol? = some x) : x.head? = some c := by
    rwa [← Token.eq_of_forms_symbol h hx]
  constructor
  · intro hmem
    simp only [Joint.ofType, List.mem_cons, Joint.word.injEq, List.not_mem_nil, or_false,
      reduceCtorEq] at hmem
    -- a variable begins with a dollar, the symbols with no letter
    rcases hmem with rfl | rfl | rfl | rfl | rfl | rfl | rfl | rfl | rfl | rfl
    · have hdollar := dollar_of_var (w := ⟨.var, t, []⟩) h rfl
      rw [show t = '$' :: t.tail from hdollar] at hc
      obtain rfl := Option.some.inj hc
      cases halpha
    all_goals
      obtain rfl := Option.some.inj (hsymbol rfl)
      cases halpha
  · rintro rfl
    obtain rfl := Option.some.inj (hsymbol rfl)
    cases halpha

/-- The first word of a description goes on with no type. -/
theorem Worded.head {d b : Text} (hd : Worded d) (hb : Blanks b) :
    ∀ w ∈ (scan [] (b ++ d)).head?, .word w.kind ∉ .word .var :: Joint.ofType ∧ w.kind ≠ .amp := by
  intro w hw
  cases d with
  -- an empty description leaves blanks, which have no word
  | nil =>
    rw [List.append_nil, Word.scan_of_blanks hb] at hw
    cases hw
  | cons c d =>
    have halpha := hd.2 c rfl
    have hhead : ∀ x ∈ (c :: d).head?, Text.isBlank x = false := by
      rintro _ ⟨⟩
      by_contra hblank
      have hspace := hd.1.front c rfl
      rw [Text.isSpace_of_isBlank (Bool.not_eq_false _ ▸ hblank)] at hspace
      cases hspace
    obtain ⟨v, ws, hv, hgap⟩ := exists_scan_cons (List.cons_ne_nil c d) hhead
    rw [scan_blanks_after hb hhead, hv] at hw
    obtain rfl : { v with gap := b } = w := by simpa using hw
    obtain ⟨tail, heq, hstands, -⟩ := Word.exists_scan (c :: d)
    rw [hv] at heq hstands
    have hforms := hstands.1.forms
    obtain ⟨x, t, ht⟩ := List.exists_cons_of_ne_nil (Token.forms_ne_nil hforms)
    rw [Word.source_cons, hgap, ht] at heq
    obtain rfl : c = x := by simpa using congrArg List.head? heq
    exact not_mem_of_isAlpha hforms (by rw [ht]; rfl) halpha

/-- Fields that have types are ended by a word that goes on with none. -/
theorem stop_of_head (h : SpelledFields depth keyword mk ws stop) {d : Text}
    (htypes : (mk d).types ≠ []) {us : List Word}
    (hus : ∀ w ∈ us.head?, .word w.kind ∉ .word .var :: Joint.ofType ∧ w.kind ≠ .amp) :
    stop us := by
  -- the first word is none of the joints of a type
  have hclear {js : List Joint} (hjs : js ⊆ .word .var :: Joint.ofType) : Clear js us := by
    cases us with
    | nil => exact clear_nil_right js
    | cons w us =>
      obtain ⟨hw, hamp⟩ := hus w rfl
      exact clear_cons_of_not_mem us (fun hmem => hw (hjs hmem)) hamp
  have hjoints {ty : TypeExpr} {vs : List Word} {js : List Joint} (hty : Spelled depth ty vs js) :
      js ⊆ .word .var :: Joint.ofType :=
    List.subset_cons_of_subset _ ((orderly_spelled depth).joints hty)
  -- one case per tag, by the joints its last type may have
  cases h with
  | param hp =>
    cases hp
    exact clear_nil_left us
  | typed hty | bound _ _ hty | «alias» _ _ hty => exact hclear (hjoints hty)
  | property | varNamed => trivial
  | method => exact hclear (by simp [Joint.ofType])
  | var hty => exact hclear (List.cons_subset.mpr ⟨List.mem_cons_self, hjoints hty⟩)
  | template => exact absurd rfl htypes

/-- A line with a structured tag is read if all types in the tag fit, and else refused for the
nesting. -/
theorem read_row (h : SpelledFields depth keyword mk ws stop) (hws : Genuine ws) {d l : Text}
    (htypes : (mk d).types ≠ []) (hd : Worded d) (hl : (Line.tag (mk d)).PrintsAs (Text.unmarked l))
    {line : SourceLine} (hline : words line.words = scan [] l) :
    ((∀ u ∈ (mk d).types, u.frames ≤ maxDepth) → Line.read line = .ok (.tag (mk d))) ∧
      ((∃ u ∈ (mk d).types, maxDepth < u.frames) → ∃ e, Line.read line = .error e ∧
        e.message = "type nesting too deep".toList) := by
  obtain ⟨cells, parts, stop', hre⟩ := respell_fields h hws
  obtain ⟨z, hz, hspread⟩ := exists_row_structured hre hd.1 hl
  obtain ⟨y, b, rfl, hy, hb, hne⟩ := spread_fields_desc hspread
  obtain ⟨vs, rfl, hphrase, -, hspelled⟩ := hre.spelled y hy
  -- the name, the fields and the description are found one after another
  have hblank : ∀ c ∈ (b ++ d).head?, Text.isBlank c = true := by
    cases b with
    | nil =>
      rw [show d = [] from by_contra fun h => hne h rfl]
      exact nofun
    | cons c b => exact hb.head
  have hblank' : ∀ c ∈ (source vs ++ (b ++ d)).head?, Text.isBlank c = true := by
    intro c hc
    rw [List.head?_append, Option.mem_def, Option.or_eq_some_iff] at hc
    rcases hc with hc | ⟨-, hc⟩
    · exact hy.head c hc
    · exact hblank c hc
  have hscan : scan [] (source vs ++ (b ++ d)) = vs ++ scan [] (b ++ d) :=
    Word.scan_source_append (hphrase.stands fun c hc => Token.isBreak_of_isBlank (hblank c hc))
  obtain ⟨ts, hts, hok, herror⟩ := Comment.exists_read_keyword hz hblank' hline
  obtain ⟨pre, rest, rfl, hpre, hrest⟩ := words_eq_append.mp (hts.trans hscan)
  have hhead := hd.head hb
  rw [← hrest] at hhead
  have hstop : stop' (words rest) := by
    refine (hre.stops _ (stop_of_head h htypes hhead)).mpr fun _ w hw hparen => ?_
    refine (hhead w hw).1 ?_
    rw [hparen]
    decide
  -- it is read if the types fit, and refused at the first that does not
  refine ⟨fun hfits => ?_, fun hdeep => ?_⟩
  · have hfields := fields_of_frames_le hspelled hfits (by decide)
    have hrest' : restOfLine rest = d :=
      restOfLine_of_scan (e := []) hd.1 hb (by decide) (by rw [hrest, List.append_nil])
    refine hok _ ?_
    rw [complete_readStructured hfields hpre hstop, hrest']
  · obtain ⟨fault, hfault, hreason⟩ := refuse_readStructured hspelled hdeep hpre hstop
    refine ⟨_, herror fault hfault, ?_⟩
    rw [Fault.toError, hreason]
    rfl

end Tag

/-! ## Section 5: Types in comments -/

namespace Comment

variable {s d l : Text} {c : Comment} {p : Tag.Place} {ty : TypeExpr} {w : Setting}

/-- A tag that was read either has no types or is spelled by its fields. -/
theorem exists_fields_of_mem (h : parse s = .ok c) {t : Tag} (ht : .tag t ∈ c.lines) :
    t.types = [] ∨ ∃ keyword mk ws stop d, Tag.SpelledFields maxDepth keyword mk ws stop ∧
      Genuine ws ∧ t = mk d := by
  obtain ⟨_, ts, _, -, -, hts, hread⟩ := exists_lexemes_of_mem h _ ht
  cases hread with
  | tag _ hread =>
    have hrest := hts.tail.stands
    -- without a structure there are no types
    rcases Tag.read_eq_ok hrest hread with ⟨-, rfl⟩ | ⟨keyword, -, hread⟩
    · exact .inl rfl
    · obtain ⟨mk, ws, stop, rest, hpass, hfields, -, rfl⟩ := Tag.sound_readStructured hread
      exact .inr ⟨keyword, mk, ws, stop, _, hfields,
        (hpass.genuine (genuine_of_stands hrest)).1, rfl⟩

/-- The types of a comment that was read fit. -/
theorem frames_le_of_mem (h : parse s = .ok c) {t : Tag} (ht : .tag t ∈ c.lines) :
    ∀ u ∈ t.types, u.frames ≤ maxDepth := by
  rcases exists_fields_of_mem h ht with hnil | ⟨keyword, mk, ws, stop, d, hfields, -, rfl⟩
  · rw [hnil]
    exact nofun
  · exact Tag.frames_le_of_fields hfields d

/-- A line with a tag that was read, after one of its types was put inside brackets. -/
theorem read_place (h : parse s = .ok c) (hp : p.IsOpen) {d₀ : Text}
    (hmem : .tag (p.fill ty d₀) ∈ c.lines) (hw : w.Named) (hd : Tag.Worded d)
    (hl : (Line.tag (p.fill (w.place ty) d)).PrintsAs (Text.unmarked l)) {line : SourceLine}
    (hline : words line.words = scan [] l) :
    (ty.frames < maxDepth → Line.read line = .ok (.tag (p.fill (w.place ty) d))) ∧
      (maxDepth ≤ ty.frames → ∃ e, Line.read line = .error e ∧
        e.message = "type nesting too deep".toList) := by
  obtain ⟨before, after, htypes⟩ := p.exists_types
  have hne (u : TypeExpr) (d : Text) : (p.fill u d).types ≠ [] := by simp [htypes]
  have hall := frames_le_of_mem h hmem
  rw [htypes] at hall
  rcases exists_fields_of_mem h hmem with hnil | ⟨_, mk, ws, stop, d₁, hfields, hws, hmk⟩
  · exact absurd hnil (hne ty d₀)
  -- with room for one frame more, the type in brackets can stand in the place of the type
  obtain rfl : d₁ = d₀ := by
    have hdesc : ∀ u d, (p.fill u d).desc = d := fun u d => by cases p <;> rfl
    rw [← hdesc ty d₀, hmk, hfields.desc_eq]
  have hroom : Tag.SpelledFields (maxDepth + 1) _ mk ws stop :=
    Tag.fields_of_frames_le (d := d₁) hfields (by
      rw [← hmk, htypes]
      exact fun u hu => (hall u hu).trans (Nat.le_succ _)) (Nat.succ_pos _)
  obtain ⟨⟨us, js, hspelled, hus⟩, -⟩ := Tag.exchanges_fields hp hfields hmk hws
  obtain ⟨vs, ks, hvs, hgenuine, hfirst⟩ := w.exists_spelled_place hw hspelled hus
  obtain ⟨ws', stop', hfields', hws'⟩ :=
    (Tag.exchanges_fields hp hroom hmk hws).put _ ⟨vs, ks, hvs, hgenuine, hfirst⟩
  obtain ⟨hfits, hdeep⟩ := Tag.read_row hfields' hws' (hne _ d) hd hl hline
  rw [htypes] at hfits hdeep
  -- the types around it fitted before
  refine ⟨fun hlt => hfits fun u hu => ?_, fun hle => hdeep ⟨w.place ty, by simp, ?_⟩⟩
  · rcases List.mem_append.mp hu with hu | hu
    · exact hall u (List.mem_append_left _ hu)
    · rcases List.mem_cons.mp hu with rfl | hu
      · rw [w.frames_place]
        exact hlt
      · exact hall u (List.mem_append_right _ (List.mem_cons_of_mem _ hu))
  · rw [w.frames_place]
    exact Nat.lt_succ_of_le hle

/-- Every type nests to the given depth at most, alone and in a comment. Inside the brackets of
another type it is read again if there is room for one frame more, and else refused for its nesting;
so it is in its place in the comment, between any other lines. -/
theorem parse_nesting :
    (∀ s ty, TypeExpr.parse s = .ok ty → ty.frames ≤ 128 ∧ ∀ w : Setting, w.Named →
      (ty.frames < 128 → TypeExpr.parse (w.text ty.print) = .ok (w.place ty)) ∧
      (128 ≤ ty.frames → ∃ e, TypeExpr.parse (w.text ty.print) = .error e ∧
        e.message = "type nesting too deep".toList)) ∧
    ∀ s c, parse s = .ok c →
      (∀ t, .tag t ∈ c.lines → ∀ ty ∈ t.types, ty.frames ≤ 128) ∧
      ∀ (p : Tag.Place) (ty : TypeExpr) (d₀ : Text), .tag (p.fill ty d₀) ∈ c.lines → p.IsOpen →
      ∀ w : Setting, w.Named → ∀ (d : Text), Tag.Worded d → ∀ (before after : List Text) (l : Text),
      (∀ x ∈ before ++ l :: after, OneLine x) →
      (Line.tag (p.fill (w.place ty) d)).PrintsAs (Text.unmarked l) →
      ∀ b, parse (ofLines before) = .ok b →
        (ty.frames < 128 → ∀ a, parse (ofLines after) = .ok a →
          parse (ofLines (before ++ l :: after)) =
            .ok ⟨b.lines ++ .tag (p.fill (w.place ty) d) :: a.lines, [], false⟩) ∧
        (128 ≤ ty.frames → ∃ e, parse (ofLines (before ++ l :: after)) = .error e ∧
          e.message = "type nesting too deep".toList) := by
  -- types alone, the types of a comment, and a type in its place between other lines
  refine ⟨fun s ty => TypeExpr.parse_place, fun s c h => ⟨fun t => frames_le_of_mem h, ?_⟩⟩
  intro p ty d₀ hmem hp w hw d hd before after l hls hrow b hb
  obtain ⟨hbefore, hrest⟩ := List.forall_mem_append.mp hls
  obtain ⟨-, hafter⟩ := List.forall_mem_cons.mp hrest
  obtain ⟨lines, hlines, rfl⟩ := (parse_ofLines_eq_ok_iff hbefore).mp hb
  have hline : words (SourceLine.ofText ⟨2, 1⟩ l).words = scan [] l :=
    Word.words_attachFrom_tokensFrom [] _ _ l
  obtain ⟨hfits, hdeep⟩ := read_place h hp hmem hw hd hrow hline
  refine ⟨fun hlt a ha => ?_, fun hle => ?_⟩
  · -- the lines around it stay as they were read
    obtain ⟨lines', hlines', rfl⟩ := (parse_ofLines_eq_ok_iff hafter).mp ha
    refine (parse_ofLines_eq_ok_iff hls).mpr ⟨_, ?_, rfl⟩
    exact List.rel_append hlines (.cons (hfits hlt) hlines')
  · -- the lines before it are read, so its error is the one of the comment
    obtain ⟨e, he, hmessage⟩ := hdeep hle
    refine ⟨⟨e.pos.down before.length, e.message⟩, ?_, hmessage⟩
    rw [parse_ofLines_eq_error_iff hls, readAll_linesFrom_eq_error_iff]
    exact ⟨before, l, after, e, rfl, exists_forall₂_iff.mp ⟨_, hlines⟩, he, rfl⟩

/-- A name in some pairs of parentheses. -/
def parens : Nat → TypeExpr
  | 0 => .named (.single ['A'])
  | n + 1 => Setting.paren.place (parens n)

theorem frames_parens (n : Nat) : (parens n).frames = n + 1 := by
  induction n with
  | zero => exact Tag.frames_named _
  | succ n ih => rw [parens, Setting.frames_place, ih]

/-- Such a type is printed with parentheses and one name. -/
theorem mem_print_parens (n : Nat) : ∀ x ∈ (parens n).print, x = 'A' ∨ x = '(' ∨ x = ')' := by
  induction n with
  | zero =>
    have hprint : (parens 0).print = ['A'] := rfl
    simp [hprint]
  | succ n ih =>
    have hprint : (parens (n + 1)).print = '(' :: (parens n).print ++ [')'] := rfl
    rw [hprint, List.forall_mem_append, List.forall_mem_cons]
    exact ⟨⟨.inr (.inl rfl), ih⟩, List.forall_mem_singleton.mpr (.inr (.inr rfl))⟩

/-- A line with the name in its parentheses. -/
def resultLine (n : Nat) : Text :=
  ['@', 'r', 'e', 't', 'u', 'r', 'n'] ++ ([' '] ++ ((parens n).print ++ ([' '] ++ ['i', 't'])))

theorem oneLine_resultLine (n : Nat) : OneLine (resultLine n) := by
  have hmem : ∀ x ∈ resultLine n, x ≠ '\n' ∧ x ≠ '/' := by
    simp only [resultLine, List.forall_mem_append]
    refine ⟨by simp, by simp, fun x hx => ?_, by simp, by simp⟩
    rcases mem_print_parens n x hx with rfl | rfl | rfl <;> decide
  exact ⟨fun h => (hmem _ h).1 rfl, fun h => (hmem '/' (h.subset (by simp))).2 rfl⟩

/-- The line is the row of its tag. -/
theorem printsAs_resultLine (n : Nat) :
    (Line.tag (.typed .returns (parens n) ['i', 't'])).PrintsAs (Text.unmarked (resultLine n)) := by
  refine ⟨['@', 'r', 'e', 't', 'u', 'r', 'n'] ++ ([' '] ++ ((parens n).print ++ ([' '] ++ []))),
    .cons (by decide) (by decide) (.cons (by decide) (by decide) .nil), ?_⟩
  have hunmarked : Text.unmarked (resultLine n) = resultLine n := rfl
  have hends : Text.EndsOff Text.isBlank (resultLine n) := by
    unfold resultLine
    iterate 4 rw [Text.endsOff_append (by simp)]
    rintro _ ⟨⟩
    rfl
  rw [hunmarked, ← Text.trimLine_eq_self hends]
  simp [resultLine, Line.row, Tag.row]

/-- A result behind the type of a variable: a name is read in 127 pairs of parentheses, and refused
in one pair more. -/
theorem parse_nesting_parens :
    (∃ c, parse (ofLines ["@var B".toList, resultLine 127]) = .ok c) ∧
      ∃ e, parse (ofLines ["@var B".toList, resultLine 128]) = .error e ∧
        e.message = "type nesting too deep".toList := by
  have hbefore : parse (ofLines ["@var B".toList]) =
      .ok ⟨[.tag (.var (.named (.single ['B'])) none [])], [], false⟩ := by
    have hts : Lexeme.ofText (ofLines ["@var B".toList]) =
        [⟨⟨.openDoc, "/**".toList, ⟨1, 1⟩⟩, []⟩, ⟨⟨.newline, ['\n'], ⟨1, 4⟩⟩, []⟩,
         ⟨⟨.tag, "@var".toList, ⟨2, 1⟩⟩, []⟩, ⟨⟨.ident, ['B'], ⟨2, 6⟩⟩, [' ']⟩,
         ⟨⟨.newline, ['\n'], ⟨2, 7⟩⟩, []⟩, ⟨⟨.closeDoc, "*/".toList, ⟨3, 1⟩⟩, []⟩] := by
      cbv
    rw [parse, hts]
    rfl
  have hafter : parse (ofLines []) = .ok ⟨[], [], false⟩ := by cbv
  have hlines (n : Nat) : ∀ x ∈ ["@var B".toList] ++ [resultLine n], OneLine x := by
    have hvar : OneLine "@var B".toList :=
      ⟨by simp, fun h => by simpa using h.subset (show '/' ∈ "*/".toList by simp)⟩
    exact List.forall_mem_cons.mpr ⟨hvar, List.forall_mem_singleton.mpr (oneLine_resultLine n)⟩
  have hworded : Tag.Worded "it".toList := by
    refine ⟨⟨?_, ?_⟩, ?_⟩
    all_goals
      rintro _ ⟨⟩
      rfl
  -- one pair of parentheses after the other
  have hstep {n : Nat} {c : Comment} {s : Text} (h : parse s = .ok c)
      (hmem : .tag (.typed .returns (parens n) "it".toList) ∈ c.lines) :=
    (parse_nesting.2 s c h).2 (.typed .returns) (parens n) "it".toList hmem trivial .paren trivial
      "it".toList hworded ["@var B".toList] [] (resultLine (n + 1)) (hlines (n + 1))
      (printsAs_resultLine (n + 1)) _ hbefore
  have hfits (n : Nat) (hn : n ≤ 127) : ∃ c,
      parse (ofLines ["@var B".toList, resultLine n]) = .ok c ∧
        .tag (.typed .returns (parens n) "it".toList) ∈ c.lines := by
    induction n with
    | zero =>
      have hline : resultLine 0 = "@return A it".toList := rfl
      have hparse : parse (ofLines ["@var B".toList, "@return A it".toList]) =
          .ok ⟨[.tag (.var (.named (.single ['B'])) none []),
            .tag (.typed .returns (parens 0) "it".toList)], [], false⟩ := by
        have hts : Lexeme.ofText (ofLines ["@var B".toList, "@return A it".toList]) =
            [⟨⟨.openDoc, "/**".toList, ⟨1, 1⟩⟩, []⟩, ⟨⟨.newline, ['\n'], ⟨1, 4⟩⟩, []⟩,
             ⟨⟨.tag, "@var".toList, ⟨2, 1⟩⟩, []⟩, ⟨⟨.ident, ['B'], ⟨2, 6⟩⟩, [' ']⟩,
             ⟨⟨.newline, ['\n'], ⟨2, 7⟩⟩, []⟩, ⟨⟨.tag, "@return".toList, ⟨3, 1⟩⟩, []⟩,
             ⟨⟨.ident, ['A'], ⟨3, 9⟩⟩, [' ']⟩, ⟨⟨.ident, "it".toList, ⟨3, 11⟩⟩, [' ']⟩,
             ⟨⟨.newline, ['\n'], ⟨3, 13⟩⟩, []⟩, ⟨⟨.closeDoc, "*/".toList, ⟨4, 1⟩⟩, []⟩] := by
          cbv
        rw [parse, hts]
        rfl
      exact ⟨_, hparse, by simp⟩
    | succ n ih =>
      obtain ⟨c, hc, hmem⟩ := ih (by omega)
      have hlt : (parens n).frames < 128 := by
        rw [frames_parens]
        omega
      exact ⟨_, (hstep hc hmem).1 hlt _ hafter, by simp [Tag.Place.fill, parens]⟩
  obtain ⟨c, hc, hmem⟩ := hfits 127 le_rfl
  exact ⟨⟨c, hc⟩, (hstep hc hmem).2 (by rw [frames_parens])⟩

end Comment

end Docblock
