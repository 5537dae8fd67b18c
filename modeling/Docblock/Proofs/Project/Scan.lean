import Mathlib.Data.List.Forall2
import Docblock.Project.Manifest
import Docblock.Proofs.Project.Path
import Docblock.Proofs.Project.Tree

/-!
# What a scan finds

A scan looks at paths as they look from its base.  So what it finds in a directory does not depend
on how the path to the directory is written: `listed` are the names of the files that a manifest
asks for, and `walk_leads` says that a scan finds the files to which these names lead.
-/

namespace Docblock

variable {α : Type} {m : Manifest} {root path name : Text} {names others : List Text}
variable {t : Tree α} {entries : List (Text × Tree α)}

/-- All entries have names that an entry can have. -/
inductive Tree.Named : Tree α → Prop where
  | file (content : α) : Named (.file content)
  | dir {entries : List (Text × Tree α)} (isName : ∀ e ∈ entries, Path.IsName e.1)
      (below : ∀ e ∈ entries, Named e.2) : Named (.dir entries)

theorem Tree.Named.of_dir (h : (Tree.dir entries).Named) :
    (∀ e ∈ entries, Path.IsName e.1) ∧ ∀ e ∈ entries, e.2.Named := by
  cases h with
  | dir isName below => exact ⟨isName, below⟩

/-- What stands below a tree is named as the tree is. -/
theorem Tree.Named.of_get? {below : Tree α} (h : t.Named) (hget : t.get? names = some below) :
    below.Named := by
  induction names generalizing t with
  | nil =>
    obtain rfl := Option.some.inj hget
    exact h
  -- each step goes to an entry, whose tree is named too
  | cons name names ih =>
    rw [Tree.get?, Option.bind_eq_some_iff] at hget
    obtain ⟨t', ht', hget⟩ := hget
    cases t with
    | file => cases ht'
    | dir entries =>
      obtain ⟨front, back, rfl, -⟩ := List.lookup_eq_some_iff.mp ht'
      exact ih (h.of_dir.2 (name, t') (by simp)) hget

namespace Path

/-- The name of a file is all of its path that decides about its extension. -/
theorem Leads.hasExtension (h : Leads root path names) (hne : names ≠ []) (m : Manifest) :
    m.hasExtension path = m.hasExtension (unsplit names) := by
  have hsplit : split (unsplit names) = names :=
    split_unsplit hne fun name hname => (h.isName name hname).no_slash
  have hlast := List.getLast?_eq_some_getLast hne
  -- the last name is the file's name, and not two dots
  have hdots : names.getLast hne ≠ "..".toList := (h.isName _ (List.getLast_mem _)).ne_dots
  have hname : Path.fileName? (unsplit names) = names.getLast? := by
    have hcounting : names.filter (!isIdle ·) = names := counting_of_isName h.isName
    rw [Path.fileName?, hsplit, hcounting, hlast]
    exact if_neg hdots
  rw [Manifest.hasExtension, Manifest.hasExtension, extension?, extension?, h.fileName? hne, hname]

end Path

namespace Project

open Docblock.Path (Leads IsName)

/-! ## Section 1: Names of found files -/

mutual

/-- The files of a tree that a manifest asks for, as names that lead to them. -/
def listed (m : Manifest) (names : List Text) : Tree α → List (List Text)
  | .file _ =>
    if !m.isExcluded (Path.unsplit names) && m.hasExtension (Path.unsplit names) then [names] else []
  | .dir entries => if !m.isExcluded (Path.unsplit names) then listedEntries m names entries else []

/-- The files among the entries of a directory. -/
def listedEntries (m : Manifest) (names : List Text) : List (Text × Tree α) → List (List Text)
  | [] => []
  | e :: rest => listedEntry m names e ++ listedEntries m names rest

/-- The files of one entry of a directory. -/
def listedEntry (m : Manifest) (names : List Text) : Text × Tree α → List (List Text)
  | (name, t) => listed m (names ++ [name]) t

end

theorem listedEntries_eq_flatMap (m : Manifest) (names : List Text)
    (entries : List (Text × Tree α)) :
    listedEntries m names entries = entries.flatMap (listedEntry m names) := by
  induction entries with
  | nil => rw [listedEntries]; rfl
  | cons e entries ih => rw [listedEntries, ih, List.flatMap_cons]

theorem enter_of_leads (hroot : root ≠ []) (h : Leads root path names) :
    (Filter.ofManifest m root).enter path = !m.isExcluded (Path.unsplit names) := by
  rw [← h.relativeTo hroot]
  rfl

theorem list_of_leads (h : Leads root path names) (hne : names ≠ []) :
    (Filter.ofManifest m root).list path = m.hasExtension (Path.unsplit names) :=
  h.hasExtension hne m

mutual

/-- A scan finds the files to which the listed names lead. -/
theorem walk_leads {m : Manifest} {root path : Text} {names : List Text} (hroot : root ≠ [])
    (h : Leads root path names) (hne : names ≠ []) :
    ∀ t : Tree α, t.Named →
      List.Forall₂ (Leads root) (walk (.ofManifest m root) path t) (listed m names t)
  | .file _, _ => by
    rw [walk, listed, enter_of_leads hroot h, list_of_leads h hne]
    split
    · exact .cons h .nil
    · exact .nil
  | .dir entries, .dir isName below => by
    rw [walk, listed, enter_of_leads hroot h]
    split
    · exact walkEntries_leads hroot h entries isName below
    · exact .nil

/-- The same for the entries of a directory, which may be the root itself. -/
theorem walkEntries_leads {m : Manifest} {root path : Text} {names : List Text} (hroot : root ≠ [])
    (h : Leads root path names) :
    ∀ entries : List (Text × Tree α), (∀ e ∈ entries, IsName e.1) → (∀ e ∈ entries, e.2.Named) →
      List.Forall₂ (Leads root) (walkEntries (.ofManifest m root) path entries)
        (listedEntries m names entries)
  | [], _, _ => by
    rw [walkEntries, listedEntries]
    exact .nil
  | e :: rest, isName, below => by
    rw [walkEntries, listedEntries]
    obtain ⟨hfirst, hrest⟩ := List.forall_mem_cons.mp isName
    obtain ⟨hbelow, hothers⟩ := List.forall_mem_cons.mp below
    exact List.rel_append (walkEntry_leads hroot h e hfirst hbelow)
      (walkEntries_leads hroot h rest hrest hothers)

/-- The same for one entry. -/
theorem walkEntry_leads {m : Manifest} {root path : Text} {names : List Text} (hroot : root ≠ [])
    (h : Leads root path names) :
    ∀ e : Text × Tree α, IsName e.1 → e.2.Named →
      List.Forall₂ (Leads root) (walkEntry (.ofManifest m root) path e) (listedEntry m names e)
  | (name, t), hname, hbelow => by
    rw [walkEntry, listedEntry]
    exact walk_leads hroot (h.join hname) (by simp) t hbelow

end

/-! ## Section 2: What the listing depends on -/

mutual

/-- Only names and kinds of entries count for a scan. -/
theorem walk_shape (f : Filter) (path : Text) :
    ∀ t : Tree α, walk f path t.shape = walk f path t
  | .file _ => by rw [Tree.shape, walk, walk]
  | .dir entries => by rw [Tree.shape, walk, walk, walkEntries_shape f path entries]

theorem walkEntries_shape (f : Filter) (path : Text) :
    ∀ entries : List (Text × Tree α),
      walkEntries f path (Tree.shapeEntries entries) = walkEntries f path entries
  | [] => by rw [Tree.shapeEntries, walkEntries, walkEntries]
  | e :: rest => by
    rw [Tree.shapeEntries, walkEntries, walkEntries, walkEntry_shape f path e,
      walkEntries_shape f path rest]

theorem walkEntry_shape (f : Filter) (path : Text) :
    ∀ e : Text × Tree α, walkEntry f path (Tree.shapeEntry e) = walkEntry f path e
  | (name, t) => by rw [Tree.shapeEntry, walkEntry, walkEntry, walk_shape f (Path.join path name) t]

end

/-- An entry that is not listed can be replaced by another one that is not listed. -/
theorem listedEntries_upsert {update : Option (Tree α) → Tree α}
    (hnew : ∀ below, listed m (names ++ [name]) (update below) = [])
    (hold : ∀ t, (name, t) ∈ entries → listed m (names ++ [name]) t = []) :
    listedEntries m names (Tree.upsert name update entries) = listedEntries m names entries := by
  have hentry : listedEntry m names (name, update none) = [] := by rw [listedEntry, hnew]
  -- along the entries, which are in order
  induction entries with
  | nil => rw [Tree.upsert, listedEntries_eq_flatMap, List.flatMap_singleton, hentry, listedEntries]
  | cons e entries ih =>
    obtain ⟨other, t⟩ := e
    rw [Tree.upsert]
    split
    · -- the entry is replaced
      next heq =>
      subst heq
      rw [listedEntries, listedEntries, listedEntry, listedEntry, hnew, hold t List.mem_cons_self]
    · split
      · -- it is new, and stands in front of this one
        rw [listedEntries, hentry, List.nil_append]
      · rw [listedEntries, listedEntries, ih fun t ht => hold t (List.mem_cons_of_mem _ ht)]

mutual

/-- The listed names begin with those that lead to the tree. -/
theorem prefix_of_mem_listed {m : Manifest} {names found : List Text} :
    ∀ t : Tree α, found ∈ listed m names t → names <+: found
  | .file _, h => by
    rw [listed] at h
    split at h
    · obtain rfl := List.mem_singleton.mp h
      exact List.prefix_rfl
    · cases h
  | .dir entries, h => by
    rw [listed] at h
    split at h
    · obtain ⟨name, t, -, hmore⟩ := prefix_of_mem_listedEntries entries h
      exact (List.prefix_append names [name]).trans hmore
    · cases h

/-- What a directory lists stands below one of its entries. -/
theorem prefix_of_mem_listedEntries {m : Manifest} {names found : List Text} :
    ∀ entries : List (Text × Tree α), found ∈ listedEntries m names entries →
      ∃ name t, (name, t) ∈ entries ∧ names ++ [name] <+: found
  | [], h => by
    rw [listedEntries] at h
    cases h
  | e :: rest, h => by
    rw [listedEntries] at h
    -- from the first entry or from another
    rcases List.mem_append.mp h with h | h
    · exact ⟨e.1, e.2, List.mem_cons_self, prefix_of_mem_listedEntry e h⟩
    · obtain ⟨name, t, hmem, hmore⟩ := prefix_of_mem_listedEntries rest h
      exact ⟨name, t, List.mem_cons_of_mem _ hmem, hmore⟩

theorem prefix_of_mem_listedEntry {m : Manifest} {names found : List Text} :
    ∀ e : Text × Tree α, found ∈ listedEntry m names e → names ++ [e.1] <+: found
  | (name, t), h => by
    rw [listedEntry] at h
    exact prefix_of_mem_listed t h

end

end Project

end Docblock
