import Mathlib.Data.List.Forall2

/-!
# Lists that go together

A text is read into lines, the lines are printed as rows, and a walk through a directory goes with
the files in it: one list goes with another, item by item.  `List.Forall₂` says so; this module has
what the development needs about it beyond the library.

1. From an item of one list to its partner.
2. Lists put together from lists that go together.
-/

namespace Docblock

variable {α β γ δ : Type} {R : α → β → Prop} {S : α → γ → Prop} {T : γ → δ → Prop}
variable {as : List α} {bs : List β} {cs : List γ} {ds : List δ}

/-! ## Section 1: Partners -/

/-- Every item of the second list has a partner in the first. -/
theorem exists_of_forall₂_right (h : List.Forall₂ R as bs) {b : β} (hb : b ∈ bs) :
    ∃ a ∈ as, R a b := by
  induction h with
  | nil => cases hb
  | @cons a b' as bs hab _ ih =>
    rcases List.mem_cons.mp hb with rfl | hb
    · exact ⟨a, List.mem_cons_self, hab⟩
    · obtain ⟨x, hx, hR⟩ := ih hb
      exact ⟨x, List.mem_cons_of_mem a hx, hR⟩

/-- Every item of the first list has a partner in the second. -/
theorem exists_of_forall₂_left (h : List.Forall₂ R as bs) {a : α} (ha : a ∈ as) :
    ∃ b ∈ bs, R a b :=
  exists_of_forall₂_right h.flip ha

/-- There is a list that goes with the first if there is a partner for each of its items. -/
theorem exists_forall₂_iff : (∃ bs, List.Forall₂ R as bs) ↔ ∀ a ∈ as, ∃ b, R a b := by
  induction as with
  | nil => simp
  | cons a as ih =>
    rw [List.forall_mem_cons, ← ih]
    constructor
    · rintro ⟨_, _ | ⟨hb, hbs⟩⟩
      exact ⟨⟨_, hb⟩, _, hbs⟩
    · rintro ⟨⟨b, hb⟩, bs, hbs⟩
      exact ⟨b :: bs, .cons hb hbs⟩

/-! ## Section 2: Lists put together -/

/-- Two lists that go with a third go together. -/
theorem forall₂_join (hR : List.Forall₂ R as bs) (hS : List.Forall₂ S as cs) :
    List.Forall₂ (fun b c => ∃ a ∈ as, R a b ∧ S a c) bs cs := by
  induction hR generalizing cs with
  | nil =>
    cases hS
    exact .nil
  | @cons a b as bs hab hR ih =>
    cases hS with
    | cons hac hS =>
      refine .cons ⟨a, List.mem_cons_self, hab, hac⟩ ((ih hS).imp ?_)
      rintro b c ⟨a', ha', h⟩
      exact ⟨a', List.mem_cons_of_mem a ha', h⟩

/-- A list that goes with another, which goes with a third, goes with the two of them zipped. -/
theorem forall₂_zip_right (hS : List.Forall₂ S as cs) (hT : List.Forall₂ T cs ds) :
    List.Forall₂ (fun a x => S a x.1 ∧ T x.1 x.2) as (cs.zip ds) := by
  induction hS generalizing ds with
  | nil => exact .nil
  | cons hac _ ih =>
    cases hT with
    | cons hcd hT => exact .cons ⟨hac, hcd⟩ (ih hT)

/-- Lists made of parts go together if their parts do. -/
theorem forall₂_flatMap {Q : γ → δ → Prop} {f : α → List γ} {g : α → List δ}
    (h : ∀ a ∈ as, List.Forall₂ Q (f a) (g a)) : List.Forall₂ Q (as.flatMap f) (as.flatMap g) := by
  induction as with
  | nil => exact .nil
  | cons a as ih =>
    obtain ⟨hfirst, hrest⟩ := List.forall_mem_cons.mp h
    exact List.rel_append hfirst (ih hrest)

end Docblock
