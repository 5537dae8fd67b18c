import Mathlib.Data.List.Lex
import Mathlib.Data.Char
import Mathlib.Data.List.Perm.Basic
import Docblock.Command.Run
import Docblock.Proofs.Project.Scan
import Docblock.Proofs.SideBySide

/-!
# Top-level directories

The sources of a new manifest are the places of the found files: the top-level directories in which
they stand, each of them once.  So the places divide the files into groups, and to scan the places
one after the other finds the files of the whole project, if none of them stands in the root.
-/

namespace Docblock.Command

open Docblock.Path (Leads IsName)
open Project (listed listedEntry listedEntries)

variable {α : Type} {m : Manifest} {root file name d : Text} {names found : List Text}
variable {files dirs : List Text} {t : Tree α} {entries : List (Text × Tree α)}

/-! ## Section 1: Places in order -/

/-- Inserting a text adds it and nothing else. -/
theorem mem_insertSorted {s : Text} : d ∈ insertSorted s dirs ↔ d = s ∨ d ∈ dirs := by
  induction dirs with
  | nil => simp [insertSorted]
  | cons t dirs ih =>
    rw [insertSorted]
    split
    · next h => simp [h]
    · split
      · simp
      · rw [List.mem_cons, ih, List.mem_cons]
        tauto

/-- A sorted list stays sorted. -/
theorem sorted_insertSorted {s : Text} (h : dirs.Pairwise (· < ·)) :
    (insertSorted s dirs).Pairwise (· < ·) := by
  induction dirs with
  | nil => simp [insertSorted]
  | cons t dirs ih =>
    obtain ⟨hfirst, hrest⟩ := List.pairwise_cons.mp h
    rw [insertSorted]
    split
    · exact h
    · next hne =>
      split
      · next hlt =>
        refine List.pairwise_cons.mpr ⟨fun u hu => ?_, h⟩
        rcases List.mem_cons.mp hu with rfl | hu
        · exact hlt
        · exact lt_trans hlt (hfirst u hu)
      · -- it goes further on, behind this one
        next hge =>
        refine List.pairwise_cons.mpr ⟨fun u hu => ?_, ih hrest⟩
        rcases mem_insertSorted.mp hu with rfl | hu
        · exact lt_of_le_of_ne (not_lt.mp hge) (Ne.symm hne)
        · exact hfirst u hu

/-- What holds of the places after each of some texts has been put among them. -/
theorem foldl_insertSorted (texts dirs : List Text) (h : dirs.Pairwise (· < ·)) :
    (∀ d, d ∈ texts.foldl (fun dirs dir => insertSorted dir dirs) dirs ↔ d ∈ texts ∨ d ∈ dirs) ∧
      (texts.foldl (fun dirs dir => insertSorted dir dirs) dirs).Pairwise (· < ·) := by
  -- induction on the texts; each is inserted into a sorted list
  induction texts generalizing dirs with
  | nil => exact ⟨by simp, h⟩
  | cons s texts ih =>
    obtain ⟨hmem, hsorted⟩ := ih (insertSorted s dirs) (sorted_insertSorted h)
    refine ⟨fun d => ?_, hsorted⟩
    rw [List.foldl_cons, hmem, mem_insertSorted, List.mem_cons]
    tauto

theorem mem_sourceDirs : d ∈ sourceDirs root files ↔ ∃ f ∈ files, topLevel root f = d := by
  rw [sourceDirs, (foldl_insertSorted _ [] .nil).1]
  simp

theorem nodup_sourceDirs (root : Text) (files : List Text) : (sourceDirs root files).Nodup :=
  (foldl_insertSorted (files.map (topLevel root)) [] .nil).2.imp ne_of_lt

/-! ## Section 2: The place of a file -/

/-- The place to which the names of a file belong. -/
def placeOf : List Text → Text
  | first :: _ :: _ => first ++ ['/']
  | _ => ['.']

theorem topLevel_of_leads (hroot : root ≠ []) (h : Leads root file names) :
    topLevel root file = placeOf names := by
  rw [topLevel, h.relativeTo hroot, Path.components_unsplit h.isName]
  rcases names with _ | ⟨first, _ | ⟨second, rest⟩⟩ <;> rfl

theorem placeOf_of_first (h : [name] <+: found) (hplace : placeOf found ≠ ['.']) :
    placeOf found = name ++ ['/'] := by
  obtain ⟨rest, rfl⟩ := h
  cases rest with
  | nil => exact absurd rfl hplace
  | cons second rest => rfl

/-- The text names a directory right below the root in which one of the files stands. -/
def IsTopLevel (root : Text) (files : List Text) (d : Text) : Prop :=
  ∃ f ∈ files, ∃ name rest, rest ≠ [] ∧
    Path.components f = Path.components root ++ name :: rest ∧ d = name ++ ['/']

/-- So the places listed are those of the names. -/
theorem mem_sourceDirs_of_leads {listed : List (List Text)} (hroot : root ≠ [])
    (h : List.Forall₂ (Leads root) files listed) :
    d ∈ sourceDirs root files ↔ ∃ found ∈ listed, placeOf found = d := by
  rw [mem_sourceDirs]
  constructor
  · rintro ⟨f, hf, rfl⟩
    obtain ⟨found, hfound, hleads⟩ := exists_of_forall₂_left h hf
    exact ⟨found, hfound, (topLevel_of_leads hroot hleads).symm⟩
  · rintro ⟨found, hfound, rfl⟩
    obtain ⟨f, hf, hleads⟩ := exists_of_forall₂_right h hfound
    exact ⟨f, hf, topLevel_of_leads hroot hleads⟩

/-- The root is among the places of the files if one of them stands right in it. -/
theorem root_mem_sourceDirs_iff {listed : List (List Text)} (hroot : root ≠ [])
    (h : List.Forall₂ (Leads root) files listed) (hne : ∀ found ∈ listed, found ≠ []) :
    ['.'] ∈ sourceDirs root files ↔
      ∃ f ∈ files, ∃ name, Path.components f = Path.components root ++ [name] := by
  rw [mem_sourceDirs_of_leads hroot h]
  constructor
  · rintro ⟨found, hfound, hplace⟩
    obtain ⟨f, hf, hleads⟩ := exists_of_forall₂_right h hfound
    -- a file in the root is led to by one name
    rcases found with _ | ⟨name, _ | ⟨second, rest⟩⟩
    · exact absurd rfl (hne _ hfound)
    · exact ⟨f, hf, name, hleads.components hroot⟩
    · -- a place below the root ends in a slash
      have hlast := congrArg List.getLast? hplace
      simp [placeOf] at hlast
  · rintro ⟨f, hf, name, hcomponents⟩
    obtain ⟨found, hfound, hleads⟩ := exists_of_forall₂_left h hf
    rw [hleads.components hroot, List.append_cancel_left_eq] at hcomponents
    exact ⟨found, hfound, by rw [hcomponents]; rfl⟩

/-- No place is listed exactly without files. -/
theorem sourceDirs_eq_nil_iff : sourceDirs root files = [] ↔ files = [] := by
  constructor
  · intro h
    refine List.eq_nil_iff_forall_not_mem.mpr fun f hf => ?_
    have hmem : topLevel root f ∈ sourceDirs root files := mem_sourceDirs.mpr ⟨f, hf, rfl⟩
    rw [h] at hmem
    cases hmem
  · rintro rfl
    rfl

/-- If no file stands in the root, the places of the files are the top-level directories. -/
theorem mem_sourceDirs_iff_isTopLevel {listed : List (List Text)} (hroot : root ≠ [])
    (h : List.Forall₂ (Leads root) files listed) (hplaces : ∀ found ∈ listed, placeOf found ≠ ['.']) :
    d ∈ sourceDirs root files ↔ IsTopLevel root files d := by
  rw [mem_sourceDirs_of_leads hroot h]
  constructor
  · rintro ⟨found, hfound, rfl⟩
    obtain ⟨f, hf, hleads⟩ := exists_of_forall₂_right h hfound
    have hplace := hplaces found hfound
    -- no file stands in the root, so at least two names lead to it
    rcases found with _ | ⟨name, _ | ⟨second, rest⟩⟩
    · exact absurd rfl hplace
    · exact absurd rfl hplace
    · exact ⟨f, hf, name, second :: rest, by simp, hleads.components hroot, rfl⟩
  · rintro ⟨f, hf, name, rest, hrest, hcomponents, rfl⟩
    obtain ⟨found, hfound, hleads⟩ := exists_of_forall₂_left h hf
    rw [hleads.components hroot, List.append_cancel_left_eq] at hcomponents
    obtain ⟨second, rest, rfl⟩ := List.exists_cons_of_ne_nil hrest
    exact ⟨found, hfound, by rw [hcomponents]; rfl⟩

/-- The components of paths are the names that lead to them, behind those of the root. -/
theorem map_components {paths : List Text} {listed : List (List Text)} (hroot : root ≠ [])
    (h : List.Forall₂ (Leads root) paths listed) :
    paths.map Path.components = listed.map (Path.components root ++ ·) := by
  induction h with
  | nil => rfl
  | cons hfirst _ ih => rw [List.map_cons, List.map_cons, ih, hfirst.components hroot]

/-! ## Section 3: Files in groups -/

/-- The groups of a list, one for each of several keys, make up the list. -/
theorem perm_flatMap_filter {β γ : Type} [DecidableEq γ] (key : β → γ) {l : List β} {keys : List γ}
    (hkeys : keys.Nodup) (hlist : ∀ b ∈ l, key b ∈ keys) :
    (keys.flatMap fun k => l.filter (key · = k)).Perm l := by
  induction keys generalizing l with
  | nil =>
    have hnil : l = [] := List.eq_nil_iff_forall_not_mem.mpr fun b hb => nomatch hlist b hb
    rw [hnil]
    rfl
  | cons k keys ih =>
    obtain ⟨hk, hkeys⟩ := List.nodup_cons.mp hkeys
    -- the other groups have no element of the first
    have hothers : ∀ k' ∈ keys, (l.filter (fun b => !decide (key b = k))).filter (key · = k') =
        l.filter (key · = k') := by
      intro k' hk'
      rw [List.filter_filter]
      apply List.filter_congr
      intro b _
      have hne : k' ≠ k := fun heq => hk (heq ▸ hk')
      by_cases hb : key b = k' <;> simp [hb, hne]
    -- the rest is grouped by the other keys
    have hrest := ih hkeys (l := l.filter fun b => !decide (key b = k)) fun b hb => by
      obtain ⟨hb, hne⟩ := List.mem_filter.mp hb
      exact (List.mem_cons.mp (hlist b hb)).resolve_left (by simpa using hne)
    rw [List.flatMap_congr hothers] at hrest
    exact (hrest.append_left _).trans (List.filter_append_perm (key · = k) l)

/-- The files of a place are those below its entry. -/
theorem filter_placeOf (hsorted : entries.Pairwise fun e f => e.1 < f.1)
    (hplaces : ∀ found ∈ listedEntries m [] entries, placeOf found ≠ ['.'])
    (hmem : (name, t) ∈ entries) :
    (listedEntries m [] entries).filter (placeOf · = name ++ ['/']) = listed m [name] t := by
  -- over the entries; their names differ, so only one of them has files in the place
  induction entries with
  | nil => cases hmem
  | cons e entries ih =>
    obtain ⟨hfirst, hrest⟩ := List.pairwise_cons.mp hsorted
    rw [listedEntries] at hplaces ⊢
    obtain ⟨hplace, hbelow⟩ := List.forall_mem_append.mp hplaces
    have hentry : ∀ found ∈ listedEntry m [] e, placeOf found = e.1 ++ ['/'] := fun found hfound =>
      placeOf_of_first (Project.prefix_of_mem_listedEntry e hfound) (hplace found hfound)
    rw [List.filter_append]
    rcases List.mem_cons.mp hmem with rfl | hmem
    · -- the entry itself: its files stand in the place, and those of the entries behind it do not
      have hself : (listedEntry m [] (name, t)).filter (placeOf · = name ++ ['/']) =
          listedEntry m [] (name, t) :=
        List.filter_eq_self.mpr fun found hfound => by simpa using hentry found hfound
      have hothers : (listedEntries m [] entries).filter (placeOf · = name ++ ['/']) = [] := by
        apply List.filter_eq_nil_iff.mpr
        intro found hfound heq
        obtain ⟨other, t', hother, hprefix⟩ := Project.prefix_of_mem_listedEntries entries hfound
        have hplace := placeOf_of_first hprefix (hbelow found hfound)
        rw [of_decide_eq_true heq, List.append_left_inj] at hplace
        exact absurd hplace (hfirst _ hother).ne
      rw [hself, hothers, List.append_nil, listedEntry]
      rfl
    · -- another entry, with other files
      have hfront : (listedEntry m [] e).filter (placeOf · = name ++ ['/']) = [] := by
        apply List.filter_eq_nil_iff.mpr
        intro found hfound heq
        have hplace := hentry found hfound
        rw [of_decide_eq_true heq, List.append_left_inj] at hplace
        exact absurd hplace (hfirst _ hmem).ne'
      rw [hfront, List.nil_append, ih hrest hbelow hmem]

end Docblock.Command
