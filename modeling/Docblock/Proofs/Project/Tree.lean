import Mathlib.Data.List.Lex
import Mathlib.Data.Char
import Docblock.Project.Tree

/-!
# File trees

A tree says of every list of names what stands there: a file with its content, a directory, or
nothing.  `content?` and `isDir?` ask for these two things, and `insert` is known by what they say
of its result.

`Tree.Ordered` is the form in which `insert` keeps the entries of a directory.  Without it an entry
could stand behind another one with the same name.
-/

namespace Docblock.Tree

variable {α : Type} {t new : Tree α} {entries : List (Text × Tree α)}
variable {update : Option (Tree α) → Tree α} {name other : Text} {names others : List Text}

/-! ## Section 1: Entries in order -/

/-- The entries of every directory stand in the order of their names, and no name stands twice. -/
inductive Ordered : Tree α → Prop where
  | file (content : α) : Ordered (.file content)
  | dir {entries : List (Text × Tree α)} (sorted : entries.Pairwise fun e f => e.1 < f.1)
      (below : ∀ e ∈ entries, Ordered e.2) : Ordered (.dir entries)

theorem Ordered.of_dir (h : Ordered (.dir entries)) :
    entries.Pairwise (fun e f => e.1 < f.1) ∧ ∀ e ∈ entries, Ordered e.2 := by
  cases h with
  | dir sorted below => exact ⟨sorted, below⟩

/-- Writing an entry leaves the others alone. -/
theorem lookup_upsert_of_ne (h : other ≠ name) :
    (upsert name update entries).lookup other = entries.lookup other := by
  have hname : (other == name) = false := by simpa using h
  induction entries with
  | nil => simp only [upsert, List.lookup_cons, hname]
  | cons e entries ih =>
    obtain ⟨first, t⟩ := e
    rw [upsert]
    split
    · next hfirst => simp only [List.lookup_cons, ← hfirst, hname]
    · split
      · simp only [List.lookup_cons, hname]
      · simp only [List.lookup_cons, ih]

/-- A name that stands once is looked up where it stands. -/
theorem lookup_of_mem (sorted : entries.Pairwise fun e f => e.1 < f.1) (h : (name, t) ∈ entries) :
    entries.lookup name = some t := by
  induction entries with
  | nil => cases h
  | cons e entries ih =>
    obtain ⟨hfirst, hrest⟩ := List.pairwise_cons.mp sorted
    -- an entry further on has a greater name, so the first does not hide it
    rcases List.mem_cons.mp h with rfl | h
    · simp
    · have hne : (name == e.1) = false := by simpa using (hfirst _ h).ne'
      rw [List.lookup_cons, hne]
      exact ih hrest h

/-- In a sorted list, an entry stands in front of all entries with a greater name. -/
theorem lookup_eq_none_of_lt (sorted : entries.Pairwise fun e f => e.1 < f.1)
    (h : ∀ e ∈ entries.head?, name < e.1) : entries.lookup name = none := by
  rw [List.lookup_eq_none_iff]
  intro e he
  cases entries with
  | nil => cases he
  | cons first entries =>
    have hfirst : name < first.1 := h first rfl
    have hlt : name < e.1 := by
      rcases List.mem_cons.mp he with rfl | he
      · exact hfirst
      · exact hfirst.trans ((List.pairwise_cons.mp sorted).1 e he)
    simpa using hlt.ne

/-- What is looked up under the name is what was written there. -/
theorem lookup_upsert_self (sorted : entries.Pairwise fun e f => e.1 < f.1) :
    (upsert name update entries).lookup name = some (update (entries.lookup name)) := by
  -- on the entries, which are passed until the name or a greater one is found
  induction entries with
  | nil => simp [upsert]
  | cons e entries ih =>
    obtain ⟨first, t⟩ := e
    rw [upsert]
    split
    · next hfirst => simp [hfirst]
    · next hne =>
      split
      · next hlt =>
        rw [lookup_eq_none_of_lt sorted (by simpa using hlt)]
        simp
      · have hne' : (name == first) = false := by simpa using hne
        simp only [List.lookup_cons, hne', ih (List.pairwise_cons.mp sorted).2]

/-- An entry is one of the old ones or the one that was written. -/
theorem mem_upsert {e : Text × Tree α} (h : e ∈ upsert name update entries) :
    e ∈ entries ∨ e.1 = name ∧ (e.2 = update none ∨ ∃ t, (name, t) ∈ entries ∧ e.2 = update (some t)) := by
  induction entries with
  | nil =>
    obtain rfl : e = (name, update none) := by simpa [upsert] using h
    exact .inr ⟨rfl, .inl rfl⟩
  | cons first entries ih =>
    obtain ⟨first, t⟩ := first
    rw [upsert] at h
    split at h
    · next hfirst =>
      subst hfirst
      rcases List.mem_cons.mp h with rfl | h
      · exact .inr ⟨rfl, .inr ⟨t, by simp, rfl⟩⟩
      · exact .inl (List.mem_cons_of_mem _ h)
    · split at h
      · rcases List.mem_cons.mp h with rfl | h
        · exact .inr ⟨rfl, .inl rfl⟩
        · exact .inl h
      · rcases List.mem_cons.mp h with rfl | h
        · exact .inl List.mem_cons_self
        · rcases ih h with h | ⟨hname, h | ⟨t, ht, h⟩⟩
          · exact .inl (List.mem_cons_of_mem _ h)
          · exact .inr ⟨hname, .inl h⟩
          · exact .inr ⟨hname, .inr ⟨t, List.mem_cons_of_mem _ ht, h⟩⟩

theorem forall_mem_upsert {P : Text × Tree α → Prop} (h : ∀ e ∈ entries, P e)
    (hnew : ∀ below, P (name, update below)) : ∀ e ∈ upsert name update entries, P e := by
  rintro ⟨other, t⟩ he
  rcases mem_upsert he with he | ⟨rfl, rfl | ⟨below, -, rfl⟩⟩
  · exact h _ he
  · exact hnew none
  · exact hnew (some below)

/-- The entries stay in order. -/
theorem sorted_upsert (sorted : entries.Pairwise fun e f => e.1 < f.1) :
    (upsert name update entries).Pairwise fun e f => e.1 < f.1 := by
  induction entries with
  | nil => simp [upsert]
  | cons e entries ih =>
    obtain ⟨first, t⟩ := e
    obtain ⟨hfirst, hrest⟩ := List.pairwise_cons.mp sorted
    rw [upsert]
    split
    · next hname =>
      subst hname
      exact List.pairwise_cons.mpr ⟨hfirst, hrest⟩
    · next hne =>
      split
      · next hlt =>
        refine List.pairwise_cons.mpr ⟨fun f hf => ?_, sorted⟩
        rcases List.mem_cons.mp hf with rfl | hf
        · exact hlt
        · exact lt_trans hlt (hfirst f hf)
      · next hge =>
        refine List.pairwise_cons.mpr ⟨fun f hf => ?_, ih hrest⟩
        rcases mem_upsert hf with hf | ⟨hf, -⟩
        · exact hfirst f hf
        · rw [hf]
          exact lt_of_le_of_ne (not_lt.mp hge) (Ne.symm hne)

@[simp] theorem insert_nil : t.insert [] new = new := by
  cases t <;> rfl

theorem insert_cons_file (content : α) : (file content).insert (name :: names) new =
    .dir (upsert name (fun below => (below.getD (.dir [])).insert names new) []) := rfl

theorem insert_cons_dir : (dir entries).insert (name :: names) new =
    .dir (upsert name (fun below => (below.getD (.dir [])).insert names new) entries) := rfl

/-- An ordered tree stays ordered. -/
theorem Ordered.insert (ht : Ordered t) (hnew : Ordered new) : Ordered (t.insert names new) := by
  -- induction on the names that lead to the place
  induction names generalizing t with
  | nil => exact hnew
  | cons name names ih =>
    have hempty : Ordered (.dir [] : Tree α) := .dir .nil (by simp)
    cases ht with
    | file =>
      rw [insert_cons_file]
      exact .dir (by simp [upsert]) (by simpa [upsert] using ih hempty)
    | @dir entries sorted below =>
      rw [insert_cons_dir]
      refine .dir (sorted_upsert sorted) fun e he => ?_
      rcases mem_upsert he with he | ⟨-, he | ⟨t, ht, he⟩⟩
      · exact below e he
      · rw [he]
        exact ih hempty
      · rw [he]
        exact ih (below _ ht)

/-! ## Section 2: What stands at the end of some names -/

/-- Two ways one after the other. -/
theorem get?_append (names others : List Text) (t : Tree α) :
    t.get? (names ++ others) = (t.get? names).bind (get? others) := by
  induction names generalizing t with
  | nil => rfl
  | cons name names ih =>
    rw [List.cons_append, get?, get?, Option.bind_assoc]
    congr 1
    exact funext ih

/-- Every part of an ordered tree is ordered. -/
theorem Ordered.of_get? (h : Ordered t) (hget : t.get? names = some new) : Ordered new := by
  induction names generalizing t with
  | nil =>
    obtain rfl := Option.some.inj hget
    exact h
  | cons name names ih =>
    rw [get?, Option.bind_eq_some_iff] at hget
    obtain ⟨below, hbelow, hget⟩ := hget
    cases h with
    | file => cases hbelow
    | dir _ hordered =>
      obtain ⟨front, back, rfl, -⟩ := List.lookup_eq_some_iff.mp hbelow
      exact ih (hordered (name, below) (by simp)) hget

/-- A new entry of a directory is put in its place there. -/
theorem Ordered.get?_insert_concat (h : Ordered t) (hget : t.get? names = some (.dir entries)) :
    (t.insert (names ++ [name]) new).get? names = some (.dir (upsert name (fun _ => new) entries)) := by
  -- induction on the way to the directory
  induction names generalizing t with
  | nil =>
    obtain rfl := Option.some.inj hget
    simp only [List.nil_append, insert_cons_dir, insert_nil]
    rfl
  | cons first names ih =>
    rw [get?, Option.bind_eq_some_iff] at hget
    obtain ⟨below, hbelow, hget⟩ := hget
    cases h with
    | file => cases hbelow
    | dir sorted hordered =>
      obtain ⟨front, back, rfl, -⟩ := List.lookup_eq_some_iff.mp hbelow
      have hlookup : List.lookup first (front ++ (first, below) :: back) = some below := hbelow
      rw [List.cons_append, insert_cons_dir, get?, entry?, lookup_upsert_self sorted, hlookup]
      exact ih (hordered (first, below) (by simp)) hget

/-- The content of the file at the end of a list of names. -/
def content? (names : List Text) (t : Tree α) : Option α :=
  match t.get? names with
  | some (.file content) => some content
  | _ => none

/-- Is what stands at the end of a list of names a directory, if something stands there? -/
def isDir? (names : List Text) (t : Tree α) : Option Bool :=
  (t.get? names).map isDir

@[simp] theorem content?_nil_file (content : α) : (file content).content? [] = some content := rfl

@[simp] theorem content?_nil_dir : (dir entries).content? [] = none := rfl

@[simp] theorem isDir?_nil : t.isDir? [] = some t.isDir := rfl

@[simp] theorem content?_cons_file (content : α) : (file content).content? (name :: names) = none := rfl

@[simp] theorem isDir?_cons_file (content : α) : (file content).isDir? (name :: names) = none := rfl

theorem content?_cons_dir :
    (dir entries).content? (name :: names) = (entries.lookup name).bind (content? names) := by
  rw [content?, get?, entry?]
  cases entries.lookup name <;> rfl

theorem isDir?_cons_dir :
    (dir entries).isDir? (name :: names) = (entries.lookup name).bind (isDir? names) := by
  rw [isDir?, get?, entry?]
  cases entries.lookup name <;> rfl

theorem content?_eq_some_iff {content : α} :
    t.content? names = some content ↔ t.get? names = some (.file content) := by
  rw [content?]
  split <;> simp_all

theorem isDir?_of_content? {content : α} (h : t.content? names = some content) :
    t.isDir? names = some false := by
  rw [isDir?, content?_eq_some_iff.mp h]
  rfl

theorem isDir?_eq_some_true_iff :
    t.isDir? names = some true ↔ ∃ entries, t.get? names = some (.dir entries) := by
  rw [isDir?]
  rcases t.get? names with _ | _ | _ <;> simp [isDir]

/-- A file can stand at the end of the names: there is one, or nothing is there but a directory to
hold it. -/
def HasRoom (names : List Text) (t : Tree α) : Prop :=
  t.isDir? names = some false ∨ t.isDir? names = none ∧ t.isDir? names.dropLast = some true

theorem HasRoom.exists_dir (h : t.HasRoom (name :: names)) : ∃ entries, t = dir entries := by
  cases t with
  | dir entries => exact ⟨entries, rfl⟩
  | file content =>
    rcases h with h | ⟨-, h⟩
    · cases h
    · cases names <;> cases h

/-- Room below a directory is room below its entry, and where there is no entry yet only the entry
itself has room. -/
theorem HasRoom.below (h : (dir entries).HasRoom (name :: names)) :
    (∃ t, entries.lookup name = some t ∧ t.HasRoom names) ∨
      entries.lookup name = none ∧ names = [] := by
  unfold HasRoom at h ⊢
  rw [isDir?_cons_dir] at h
  -- without an entry of that name the file is put into this very directory
  cases hlookup : entries.lookup name with
  | none =>
    rw [hlookup] at h
    cases names with
    | nil => exact .inr ⟨rfl, rfl⟩
    | cons next names =>
      rw [List.dropLast_cons_of_ne_nil (by simp), isDir?_cons_dir, hlookup] at h
      simp at h
  | some t =>
    rw [hlookup] at h
    refine .inl ⟨t, rfl, ?_⟩
    cases names with
    | nil => cases t <;> simp_all [isDir]
    | cons next names =>
      rw [List.dropLast_cons_of_ne_nil (by simp), isDir?_cons_dir, hlookup] at h
      exact h

/-- Putting a file in a place with room for it changes nothing elsewhere. -/
theorem HasRoom.insert_spec (ht : Ordered t) (h : t.HasRoom names) (content : α)
    (others : List Text) :
    (t.insert names (.file content)).content? others =
        (if others = names then some content else t.content? others) ∧
      (t.insert names (.file content)).isDir? others =
        if others = names then some false else t.isDir? others := by
  -- induction on the way to the file, compared with the way that is asked for
  induction names generalizing t others with
  | nil =>
    cases t with
    | dir entries => simp [HasRoom, isDir] at h
    | file old => cases others <;> simp [isDir]
  | cons name names ih =>
    obtain ⟨entries, rfl⟩ := h.exists_dir
    obtain ⟨sorted, below⟩ := ht.of_dir
    rw [insert_cons_dir]
    cases others with
    | nil => simp [isDir]
    | cons other others =>
      rw [content?_cons_dir, content?_cons_dir, isDir?_cons_dir, isDir?_cons_dir]
      by_cases hother : other = name
      · -- the two ways share their first name
        subst hother
        rw [lookup_upsert_self sorted]
        rcases h.below with ⟨t, hlookup, hroom⟩ | ⟨hlookup, rfl⟩
        · obtain ⟨front, back, hentries, -⟩ := List.lookup_eq_some_iff.mp hlookup
          have ht : Ordered t := below (other, t) (by simp [hentries])
          simpa [hlookup] using ih ht hroom others
        · cases others <;> simp [hlookup, isDir]
      · -- they part here, so what was asked for is untouched
        rw [lookup_upsert_of_ne hother]
        simp [hother]

end Docblock.Tree
