import Mathlib.Data.List.Induction
import Mathlib.Data.List.Infix
import Mathlib.Data.List.Nodup
import Docblock.Command.Discovery
import Docblock.Proofs.Command.Session
import Docblock.Proofs.Project.Scan
import Docblock.Proofs.Project.Workspace
import Docblock.Proofs.Text.ByteOrder

/-!
# The listing of a directory

A scan of a directory goes into everything that the manifest does not leave out and lists the files
that have one of its extensions.  So a file is listed if neither it nor a directory on the way to it
is left out, seen from the root of the scan, and the order of the list is that of the names: where
the ways to two files part, the file behind the lesser name is listed first.

- `Workspace.look?_descend`: what stands at the end of some names below a directory.
- `mem_listed_iff`: the files that are listed, by induction on the tree.
- `pairwise_listed`: the order in which they are listed.
- `Session.step_scanDirectory_exact`: both for a scan, wherever the directory stands.
-/

namespace Docblock

variable {α : Type} {m : Manifest} {root path name : Text} {names found rest : List Text}
variable {t : Tree α} {entries : List (Text × Tree α)}

/-! ## Section 1: Names below a directory -/

namespace Path

/-- The path of what names lead to from `root`. -/
def descend (root : Text) (names : List Text) : Text :=
  names.foldl join root

@[simp] theorem descend_nil : descend root [] = root := rfl

theorem descend_concat : descend root (names ++ [name]) = join (descend root names) name := by
  rw [descend, List.foldl_append]
  rfl

theorem leads_descend (hroot : root ≠ []) (h : ∀ name ∈ names, IsName name) :
    Leads root (descend root names) names := by
  induction names using List.reverseRecOn with
  | nil => exact .refl hroot
  | append_singleton names name ih =>
    rw [descend_concat]
    exact (ih fun other hother => h other (by simp [hother])).join (h name (by simp))

end Path

namespace Workspace

open Docblock.Path (IsName descend leads_descend)

variable {w : Workspace} {place : List Text} {entries : List (Text × Tree ByteArray)}

/-- Parts that do not count lead nowhere else. -/
theorem eq_of_follow_idle {tree : Tree ByteArray} {idle : List Text}
    (hidle : ∀ part ∈ idle, Path.isIdle part = true) (h : follow tree place idle = .ok names) :
    names = place := by
  induction idle with
  | nil => exact (Except.ok.inj h).symm
  | cons part idle ih =>
    obtain ⟨hpart, hidle⟩ := List.forall_mem_cons.mp hidle
    rw [follow] at h
    split at h
    · cases h
    · cases h
    · -- an idle part stays where it is
      rw [if_pos hpart] at h
      exact ih hidle h

/-- A directory that stands at a path stands at a place of the tree. -/
theorem exists_isAt (h : w.look? root = some (.dir entries)) : ∃ place, IsAt w root place entries := by
  rw [look?] at h
  split at h
  · next names hresolve =>
    have hne : root ≠ [] := by
      rintro rfl
      cases hresolve
    obtain ⟨idle, hidle, hsplit⟩ := Path.exists_split_eq_stem root
    rw [resolve, if_neg (by simpa using hne), hsplit, follow_append] at hresolve
    cases hstem : w.resolveStem root with
    | error cause =>
      rw [resolveStem] at hstem
      rw [hstem] at hresolve
      cases hresolve
    -- behind the stem stand idle parts only
    | ok place =>
      rw [← resolveStem, hstem] at hresolve
      obtain rfl := eq_of_follow_idle hidle hresolve
      exact ⟨names, hne, hstem, h⟩
  · cases h

/-- Names lead from a directory to where they lead in its tree. -/
theorem get?_follow {tree : Tree ByteArray} (hget : tree.get? place = some (.dir entries))
    (h : ∀ name ∈ names, IsName name) :
    (match follow tree place names with
      | .ok found => tree.get? found
      | .error _ => none) = (Tree.dir entries).get? names := by
  -- along the names; a file or nothing at all ends the way, and then no name may follow
  induction names generalizing place entries with
  | nil => exact hget
  | cons name names ih =>
    obtain ⟨hname, hnames⟩ := List.forall_mem_cons.mp h
    have hentry : tree.get? (place ++ [name]) = entries.lookup name := by
      rw [Tree.get?_append, hget]
      change (entries.lookup name).bind _ = _
      cases entries.lookup name <;> rfl
    have hfirst : follow tree place (name :: names) = follow tree (place ++ [name]) names := by
      rw [follow, hget]
      simp only [hname.not_isIdle, Bool.false_eq_true, if_false, if_neg hname.ne_dots]
    have hbelow : (Tree.dir entries).get? (name :: names) = (entries.lookup name).bind (Tree.get? names) :=
      rfl
    rw [hfirst, hbelow]
    cases hlookup : entries.lookup name with
    -- nothing of that name
    | none =>
      rw [hlookup] at hentry
      cases names with
      | nil => exact hentry
      | cons next names =>
        rw [follow, hentry]
        rfl
    | some below =>
      rw [hlookup] at hentry
      cases below with
      | dir below => exact ih hentry hnames
      -- a file, below which nothing stands
      | file bytes =>
        cases names with
        | nil => exact hentry
        | cons next names =>
          rw [follow, hentry]
          rfl

/-- What stands below a directory is what its tree says. -/
theorem look?_descend (h : w.look? root = some (.dir entries)) (hnames : ∀ name ∈ names, IsName name) :
    w.look? (descend root names) = (Tree.dir entries).get? names := by
  obtain ⟨place, hplace⟩ := exists_isAt h
  cases names using List.reverseRecOn with
  | nil => exact h
  -- the path is the one of the directory, joined with all names but the last, and the last
  | append_singleton names name =>
    obtain ⟨hfront, hlast⟩ := List.forall_mem_append.mp hnames
    have hname : IsName name := hlast name (by simp)
    have hleads := leads_descend hplace.ne_nil hfront
    obtain ⟨idle, hidle, hstem⟩ := hleads.parts
    have hresolve : w.resolve (descend root (names ++ [name])) = follow w.tree place (names ++ [name]) := by
      rw [Path.descend_concat, resolve_join hleads.ne_nil hname.isAbsolute, resolveStem,
        hleads.isAbsolute, hstem, List.append_assoc, follow_append, ← resolveStem, hplace.resolveStem,
        Path.split_of_no_slash hname.no_slash, follow_append]
      change ((follow w.tree place (idle ++ names)).bind _) = _
      rw [follow_append, hplace.follow_idle hidle]
      rfl
    have hfound := get?_follow hplace.get? hnames
    rw [← hresolve] at hfound
    exact hfound

end Workspace

/-! ## Section 2: The files that are listed -/

namespace Project

open Docblock.Path (IsName descend leads_descend)

/-- The manifest asks for the file that names lead to, from a directory that the names in front lead
to: the file has one of the extensions, and nothing on the way to it is left out. -/
structure Asks (m : Manifest) (t : Tree α) (names rest : List Text) : Prop where
  isFile : t.isDir? rest = some false
  hasExtension : m.hasExtension (Path.unsplit (names ++ rest)) = true
  enters : ∀ front, front <+: rest → m.isExcluded (Path.unsplit (names ++ front)) = false

/-- A file is asked for at its own place, if nothing on the way excludes it and its extension fits.
-/
theorem asks_file_iff {content : α} :
    Asks m (.file content) names rest ↔ rest = [] ∧
      m.isExcluded (Path.unsplit names) = false ∧ m.hasExtension (Path.unsplit names) = true := by
  constructor
  · intro h
    have hrest : rest = [] := by
      cases rest with
      | nil => rfl
      | cons name rest => cases h.isFile
    subst hrest
    simpa using And.intro (h.enters [] List.prefix_rfl) h.hasExtension
  · rintro ⟨rfl, hexcluded, hextension⟩
    exact ⟨rfl, by simpa using hextension, by simpa using hexcluded⟩

/-- In a directory, what is asked for stands below one of its entries. -/
theorem asks_dir_iff :
    Asks m (.dir entries) names rest ↔ m.isExcluded (Path.unsplit names) = false ∧
      ∃ name below more, rest = name :: more ∧ entries.lookup name = some below ∧
        Asks m below (names ++ [name]) more := by
  constructor
  · intro h
    refine ⟨by simpa using h.enters [] List.nil_prefix, ?_⟩
    cases rest with
    | nil => cases h.isFile
    | cons name more =>
      have hfile := h.isFile
      rw [Tree.isDir?_cons_dir, Option.bind_eq_some_iff] at hfile
      obtain ⟨below, hlookup, hfile⟩ := hfile
      refine ⟨name, below, more, rfl, hlookup, hfile, by simpa using h.hasExtension, fun front hfront => ?_⟩
      simpa using h.enters (name :: front) (List.prefix_cons_inj name |>.mpr hfront)
  · -- the directory itself must not be excluded, nor anything on the way
    rintro ⟨hexcluded, name, below, more, rfl, hlookup, h⟩
    refine ⟨?_, by simpa using h.hasExtension, fun front hfront => ?_⟩
    · rw [Tree.isDir?_cons_dir, hlookup]
      exact h.isFile
    · cases front with
      | nil => simpa using hexcluded
      | cons first front =>
        obtain ⟨rfl, hmore⟩ := List.cons_prefix_cons.mp hfront
        simpa using h.enters front hmore

/-- The listed files are those that the manifest asks for. -/
theorem mem_listed_iff (ht : t.Ordered) :
    found ∈ listed m names t ↔ ∃ rest, found = names ++ rest ∧ Asks m t names rest := by
  -- over the tree; `names` are those on the way to it
  induction ht generalizing names with
  | file content =>
    simp only [asks_file_iff]
    rw [listed]
    split <;> simp_all
  | @dir entries sorted below ih =>
    have hlookup (name : Text) (t : Tree α) : (name, t) ∈ entries ↔ entries.lookup name = some t := by
      refine ⟨Tree.lookup_of_mem sorted, fun h => ?_⟩
      obtain ⟨front, back, hentries, -⟩ := List.lookup_eq_some_iff.mp h
      simp [hentries]
    rw [listed]
    split
    · -- the directory is entered
      next hexcluded =>
      rw [listedEntries_eq_flatMap, List.mem_flatMap]
      constructor
      · rintro ⟨⟨name, t⟩, hmem, hfound⟩
        rw [listedEntry, ih _ hmem] at hfound
        obtain ⟨rest, rfl, hasks⟩ := hfound
        exact ⟨name :: rest, by simp, asks_dir_iff.mpr
          ⟨by simpa using hexcluded, name, t, rest, rfl, (hlookup name t).mp hmem, hasks⟩⟩
      · rintro ⟨rest, rfl, hasks⟩
        obtain ⟨-, name, t, rest, rfl, hentry, hasks⟩ := asks_dir_iff.mp hasks
        have hmem := (hlookup name t).mpr hentry
        refine ⟨(name, t), hmem, ?_⟩
        rw [listedEntry, ih _ hmem]
        exact ⟨rest, by simp, hasks⟩
    · -- it is left out, with all below it
      next hexcluded =>
      refine iff_of_false List.not_mem_nil ?_
      rintro ⟨rest, -, hasks⟩
      rw [(asks_dir_iff.mp hasks).1] at hexcluded
      exact hexcluded rfl

/-! ## Section 3: The order of the list -/

/-- Where the ways to two files part, the first goes on with the name that is less, byte by byte. -/
def Before (a b : List Text) : Prop :=
  ∃ front x y as bs, a = front ++ x :: as ∧ b = front ++ y :: bs ∧ Text.bytes x < Text.bytes y

theorem Before.ne {a b : List Text} (h : Before a b) : a ≠ b := by
  obtain ⟨front, x, y, as, bs, rfl, rfl, hlt⟩ := h
  intro heq
  obtain ⟨rfl, -⟩ := List.cons.inj (List.append_cancel_left heq)
  exact List.lt_irrefl _ hlt

/-- Files are listed in the order of their names. -/
theorem pairwise_listed (ht : t.Ordered) : (listed m names t).Pairwise Before := by
  induction ht generalizing names with
  | file content =>
    rw [listed]
    split <;> simp
  | @dir entries sorted below ih =>
    rw [listed]
    split
    · rw [listedEntries_eq_flatMap, List.pairwise_flatMap]
      refine ⟨?_, sorted.imp ?_⟩
      · rintro ⟨name, t⟩ he
        rw [listedEntry]
        exact ih _ he
      · -- the names of what is listed for an entry begin with that of the entry
        intro e f hlt a ha b hb
        obtain ⟨as, rfl⟩ := prefix_of_mem_listedEntry e ha
        obtain ⟨bs, rfl⟩ := prefix_of_mem_listedEntry f hb
        exact ⟨names, e.1, f.1, as, bs, by simp, by simp, Text.bytes_lt_bytes hlt⟩
    · exact .nil

/-! ## Section 4: Scanning a directory -/

theorem walkEntries_eq_flatMap (f : Filter) (path : Text) (entries : List (Text × Tree α)) :
    walkEntries f path entries = entries.flatMap (walkEntry f path) := by
  induction entries with
  | nil => rw [walkEntries]; rfl
  | cons e entries ih => rw [walkEntries, ih, List.flatMap_cons]

/-- A scan lists the paths of the listed names. -/
theorem walk_descend (hroot : root ≠ []) (ht : t.Named) (hnames : ∀ name ∈ names, IsName name)
    (hne : t.isDir = false → names ≠ []) :
    walk (.ofManifest m root) (descend root names) t = (listed m names t).map (descend root) := by
  induction ht generalizing names with
  -- a file is found at its own path
  | file content =>
    have hleads := leads_descend hroot hnames
    rw [walk, listed, enter_of_leads hroot hleads, list_of_leads hleads (hne rfl)]
    split <;> rfl
  | @dir entries isName below ih =>
    rw [walk, listed, enter_of_leads hroot (leads_descend hroot hnames)]
    split
    · rw [walkEntries_eq_flatMap, listedEntries_eq_flatMap, List.map_flatMap]
      refine List.flatMap_congr fun e he => ?_
      obtain ⟨name, t⟩ := e
      have hmore : ∀ other ∈ names ++ [name], IsName other :=
        List.forall_mem_append.mpr ⟨hnames, by simpa using isName _ he⟩
      rw [walkEntry, listedEntry, ← Path.descend_concat]
      exact ih _ he hmore fun _ => by simp
    · rfl

/-- The names that lead to something in a tree are names that entries can have. -/
theorem isName_of_isDir? {b : Bool} (ht : t.Named) (h : t.isDir? names = some b) :
    ∀ name ∈ names, IsName name := by
  induction names generalizing t with
  | nil => simp
  | cons name names ih =>
    cases ht with
    | file => cases h
    -- each step goes to an entry, and entries have names
    | @dir entries isName below =>
      rw [Tree.isDir?_cons_dir, Option.bind_eq_some_iff] at h
      obtain ⟨t, hlookup, h⟩ := h
      obtain ⟨front, back, rfl, -⟩ := List.lookup_eq_some_iff.mp hlookup
      exact List.forall_mem_cons.mpr ⟨isName (name, t) (by simp), ih (below (name, t) (by simp)) h⟩

end Project

namespace Session

open Docblock.Path (IsName descend relativeTo leads_descend unsplit)
open Project (listed Before Asks)

variable {entries : List (Text × Tree ByteArray)}

/-- The scan of a directory, as names. -/
theorem step_scanDirectory {s : Session} (hnamed : (Tree.dir entries).Named)
    (hroot : s.workspace.look? root = some (.dir entries)) (m : Manifest) :
    s.step (Project.scanDirectory m root) = ((listed m [] (.dir entries)).map (descend root), s) := by
  obtain ⟨place, hplace⟩ := Workspace.exists_isAt hroot
  rw [Project.scanDirectory, step_scanFrom, hroot]
  simp only [Project.walk_shape]
  rw [← Project.walk_descend hplace.ne_nil hnamed (by simp) (by simp [Tree.isDir])]
  rfl

/-- What the manifest asks for, as it shows at the paths below a directory. -/
theorem asks_iff_descend {s : Session} (hnamed : (Tree.dir entries).Named)
    (hroot : s.workspace.look? root = some (.dir entries)) (m : Manifest) (names : List Text) :
    Asks m (.dir entries) [] names ↔ (∀ name ∈ names, IsName name) ∧
      (∃ bytes, s.workspace.look? (descend root names) = some (.file bytes)) ∧
      m.hasExtension (descend root names) = true ∧
      ∀ front, front <+: names → m.isExcluded (relativeTo root (descend root front)) = false := by
  obtain ⟨place, hplace⟩ := Workspace.exists_isAt hroot
  -- from the directory, what stands below it is seen at its names, and its extension is at the last
  have hseen (hnames : ∀ name ∈ names, IsName name) (front : List Text) (hfront : front <+: names) :
      relativeTo root (descend root front) = unsplit front :=
    (leads_descend hplace.ne_nil fun name h => hnames name (hfront.subset h)).relativeTo hplace.ne_nil
  have hextension (hnames : ∀ name ∈ names, IsName name) (hne : names ≠ []) :
      m.hasExtension (descend root names) = m.hasExtension (unsplit names) :=
    (leads_descend hplace.ne_nil hnames).hasExtension hne m
  have hne (h : (Tree.dir entries).isDir? names = some false) : names ≠ [] := by
    rintro rfl
    cases h
  have hfile (hnames : ∀ name ∈ names, IsName name) :
      (Tree.dir entries).isDir? names = some false ↔
        ∃ bytes, s.workspace.look? (descend root names) = some (.file bytes) := by
    rw [Workspace.look?_descend hroot hnames, Tree.isDir?]
    rcases (Tree.dir entries).get? names with _ | _ | _ <;> simp [Tree.isDir]
  constructor
  · intro h
    have hnames := Project.isName_of_isDir? hnamed h.isFile
    refine ⟨hnames, (hfile hnames).mp h.isFile, ?_, fun front hfront => ?_⟩
    · rw [hextension hnames (hne h.isFile)]
      exact h.hasExtension
    · rw [hseen hnames front hfront]
      exact h.enters front hfront
  · rintro ⟨hnames, hbytes, hext, henters⟩
    have hisFile := (hfile hnames).mpr hbytes
    refine ⟨hisFile, ?_, fun front hfront => ?_⟩
    · rw [List.nil_append, ← hextension hnames (hne hisFile)]
      exact hext
    · rw [List.nil_append, ← hseen hnames front hfront]
      exact henters front hfront

/-- A scan of a directory lists the files below it that have one of the extensions and are not left
out, neither themselves nor a directory on the way to them, each of them once and in the order of
their names. Seen from the directory the list is the same wherever the directory stands. -/
theorem step_scanDirectory_exact (m : Manifest) (hordered : (Tree.dir entries).Ordered)
    (hnamed : (Tree.dir entries).Named) :
    ∃ found : List (List Text), found.Pairwise Before ∧
      ∀ (s : Session) (root : Text), s.workspace.look? root = some (.dir entries) →
        s.step (Project.scanDirectory m root) = (found.map (descend root), s) ∧
        (found.map (descend root)).Nodup ∧
        (found.map (descend root)).map (relativeTo root) = found.map unsplit ∧
        ∀ names, names ∈ found ↔ (∀ name ∈ names, IsName name) ∧
          (∃ bytes, s.workspace.look? (descend root names) = some (.file bytes)) ∧
          m.hasExtension (descend root names) = true ∧
          ∀ front, front <+: names → m.isExcluded (relativeTo root (descend root front)) = false := by
  have horder : (listed m [] (.dir entries)).Pairwise Before := Project.pairwise_listed hordered
  have hmem (names : List Text) : names ∈ listed m [] (.dir entries) ↔ Asks m (.dir entries) [] names := by
    rw [Project.mem_listed_iff hordered]
    simp
  have hnames : ∀ names ∈ listed m [] (.dir entries), ∀ name ∈ names, IsName name :=
    fun names h => Project.isName_of_isDir? hnamed ((hmem names).mp h).isFile
  refine ⟨listed m [] (.dir entries), horder, fun s root hroot => ?_⟩
  obtain ⟨place, hplace⟩ := Workspace.exists_isAt hroot
  -- seen from the root, each path is its names again
  have hseen : ((listed m [] (.dir entries)).map (descend root)).map (relativeTo root) =
      (listed m [] (.dir entries)).map unsplit := by
    rw [List.map_map]
    exact List.map_congr_left fun names h =>
      (leads_descend hplace.ne_nil (hnames names h)).relativeTo hplace.ne_nil
  refine ⟨step_scanDirectory hnamed hroot m, ?_, hseen, fun names => ?_⟩
  · -- the names of a file can be read off its path
    have hback : ((listed m [] (.dir entries)).map unsplit).map Path.components =
        listed m [] (.dir entries) := by
      rw [List.map_map]
      exact (List.map_congr_left fun names h => Path.components_unsplit (hnames names h)).trans
        (List.map_id _)
    refine List.Nodup.of_map (relativeTo root) (List.Nodup.of_map Path.components ?_)
    rw [hseen, hback]
    exact horder.imp Before.ne
  · rw [hmem]
    exact asks_iff_descend hnamed hroot m names

/-- A directory with the name that is left out further down in it. -/
theorem step_scanDirectory_vendor :
    ∃ found : List (List Text),
      (step ⟨⟨.dir [("vendor".toList, .dir [("a.php".toList, .file .empty),
          ("vendor".toList, .dir [("b.php".toList, .file .empty)])])], []⟩, .empty, [], []⟩
        (Project.scanDirectory ⟨[], ["vendor/*".toList], ["php".toList]⟩ "/vendor".toList)).1 =
          found.map (descend "/vendor".toList) ∧
        ["a.php".toList] ∈ found ∧ ["vendor".toList, "b.php".toList] ∉ found := by
  generalize hs : (⟨⟨.dir [("vendor".toList, .dir [("a.php".toList, .file .empty),
    ("vendor".toList, .dir [("b.php".toList, .file .empty)])])], []⟩, .empty, [], []⟩ : Session) = s
  have hordered : (Tree.dir [("a.php".toList, .file ByteArray.empty),
      ("vendor".toList, .dir [("b.php".toList, .file .empty)])]).Ordered :=
    .dir (by decide) (by simpa using ⟨.file _, .dir (by simp) (by simpa using .file _)⟩)
  have hnamed : (Tree.dir [("a.php".toList, .file ByteArray.empty),
      ("vendor".toList, .dir [("b.php".toList, .file .empty)])]).Named :=
    .dir (by decide) (by simpa using ⟨.file _, .dir (by decide) (by simpa using .file _)⟩)
  obtain ⟨found, -, h⟩ := step_scanDirectory_exact ⟨[], ["vendor/*".toList], ["php".toList]⟩ hordered hnamed
  have hroot : s.workspace.look? "/vendor".toList = some (.dir [("a.php".toList, .file .empty),
      ("vendor".toList, .dir [("b.php".toList, .file .empty)])]) := by
    rw [← hs]
    rfl
  obtain ⟨hstep, -, -, hfound⟩ := h s "/vendor".toList hroot
  refine ⟨found, congrArg Prod.fst hstep, (hfound _).mpr ⟨by decide, ⟨.empty, ?_⟩, by decide, ?_⟩, ?_⟩
  · rw [← hs]
    rfl
  · simp only [← List.mem_inits]
    decide
  · intro hmem
    exact absurd (((hfound _).mp hmem).2.2.2 _ List.prefix_rfl) (by decide)

end Session

end Docblock
