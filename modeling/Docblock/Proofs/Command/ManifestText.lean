import Docblock.Command.Run
import Docblock.Proofs.Text.Trim
import Docblock.Proofs.Yaml.Sections

/-!
# Texts of new manifests

A new manifest is written by hand, between double quotes and without escapes.  So what is read from
it is what was written, if nothing that is written needs an escape.
-/

namespace Docblock

open Yaml (Verbatim IsWord IsSection entryValue sectionText lastText)

namespace Manifest

variable {f : Fields}

/-! ## Section 1: Entries -/

/-- The sequence of a key holds the texts of its items. -/
theorem texts?_entryValue (word : Text) (items : List (Text × Bool)) :
    texts? (entryValue word items).2 = some (items.map Prod.fst) := by
  have hitems : (items.map fun i => Yaml.scalar i.1 i.2).mapM Yaml.scalar? =
      some (items.map Prod.fst) := by
    induction items with
    | nil => rfl
    | cons i items ih => simp [Yaml.scalar?, ih]
  exact hitems

@[simp] theorem Key.ofWord?_word (key : Key) : ofWord? key.word = some key := by
  cases key <;> rfl

/-- An entry with a key that has no value yet gives it one. -/
theorem add_word {key : Key} (h : f key = none) (items : List (Text × Bool)) :
    f.add (entryValue key.word items) = some (f.set key (some (items.map Prod.fst))) := by
  have hkey : (entryValue key.word items).1.scalar? = some key.word := rfl
  unfold Fields.add
  simp only [hkey, Option.bind_eq_bind, Option.bind_some, Key.ofWord?_word, h, texts?_entryValue]
  rfl

end Manifest

namespace Command

open Manifest (Key Fields)

variable {m : Manifest} {dirs items : List Text}

/-! ## Section 2: Texts -/

/-- The sources that a new manifest names. None are named if the whole project counts. -/
def namedSources (dirs : List Text) : List Text :=
  if dirs.contains ['.'] then [] else dirs

theorem namedSources_eq_nil_iff : namedSources dirs = [] ↔ dirs = [] ∨ ['.'] ∈ dirs := by
  rw [namedSources]
  split
  · next h => simpa using .inr (by simpa using h)
  · next h => simpa using fun hmem => absurd hmem (by simpa using h)

theorem namedSources_eq_self (h : ['.'] ∉ dirs) : namedSources dirs = dirs :=
  if_neg (by simpa using h)

/-- A key with its items, or nothing if there are none. -/
def sectionOf (word : Text) (items : List Text) : List (Text × List Text) :=
  if items.isEmpty then [] else [(word, items)]

/-- A section is written if it has an item. -/
theorem flatMap_sectionText (word : Text) (items : List Text) :
    (sectionOf word items).flatMap (fun e => sectionText e.1 e.2) =
      if items.isEmpty then [] else word ++ ":\n".toList ++ items.flatMap quotedItem := by
  rw [sectionOf]
  split
  · rfl
  · rw [List.flatMap_singleton, sectionText]
    rfl

/-- A new manifest has a section for its sources, one for its patterns, and one for its extension. -/
theorem manifestText_eq (hextension : m.extensions = [e]) : manifestText dirs m =
    (sectionOf Key.sources.word (namedSources dirs) ++ sectionOf Key.excludes.word m.excludes).flatMap
      (fun e => sectionText e.1 e.2) ++ lastText Key.extensions.word e := by
  have hsources : (if dirs.isEmpty || dirs.contains ['.'] then ([] : Text)
      else "sources:\n".toList ++ dirs.flatMap quotedItem) =
      if (namedSources dirs).isEmpty then []
      else "sources".toList ++ ":\n".toList ++ (namedSources dirs).flatMap quotedItem := by
    rw [namedSources]
    cases dirs.contains ['.'] with
    | false => cases dirs <;> rfl
    | true => rw [Bool.or_true]; rfl
  have hextensions : "extensions:\n".toList ++
      (m.extensions.flatMap fun e => "  - ".toList ++ e ++ ['\n']) = lastText Key.extensions.word e := by
    rw [hextension, List.flatMap_singleton]
    rfl
  rw [manifestText, List.append_assoc _ "extensions:\n".toList, hextensions, hsources,
    List.flatMap_append, flatMap_sectionText, flatMap_sectionText]
  rfl

/-- What is written is a section. -/
theorem isSection_of_mem_sectionOf {word : Text} (hword : IsWord word) (hitems : ∀ t ∈ items, Verbatim t) :
    ∀ e ∈ sectionOf word items, IsSection e.1 e.2 := by
  rw [sectionOf]
  split
  · simp
  · next hne =>
    rintro e he
    obtain rfl := List.mem_singleton.mp he
    exact ⟨hword, by simpa using hne, hitems⟩

/-- The items of a section, if there is one. -/
def given (items : List Text) : Option (List Text) :=
  if items.isEmpty then none else some items

theorem getD_given (items : List Text) : (given items).getD [] = items := by
  cases items <;> rfl

/-- A section gives its key the items, and says nothing about it if there are none. -/
theorem foldlM_section {f : Fields} (key : Key) (h : f key = none) (items : List Text) :
    ((sectionOf key.word items).map fun e => entryValue e.1 (e.2.map (·, false))).foldlM
      Fields.add f = some (f.set key (given items)) := by
  rw [sectionOf, given]
  split
  · -- setting a key to nothing that has nothing
    have hset : f.set key none = f := by
      funext k
      rw [Fields.set]
      split
      · next heq => rw [heq, h]
      · rfl
    rw [hset]
    rfl
  · rw [List.map_singleton, List.foldlM_cons, Manifest.add_word h _, List.map_map]
    simp [Function.comp_def]

/-- The sections of a new manifest are about different keys, so each finds its own without a value. -/
theorem foldlM_entries (sources excludes : List Text) (e : Text) :
    ((sectionOf Key.sources.word sources ++ sectionOf Key.excludes.word excludes).map
        (fun e => entryValue e.1 (e.2.map (·, false))) ++
      [entryValue Key.extensions.word [(e, true)]]).foldlM Fields.add
        (fun _ => none) =
      some (((Fields.set (fun _ => none) .sources (given sources)).set
        .excludes (given excludes)).set .extensions (some [e])) := by
  generalize hf : Fields.set (fun _ => none) .sources (given sources) = f
  generalize hg : f.set .excludes (given excludes) = g
  have hf' : f .excludes = none := by rw [← hf]; rfl
  have hg' : g .extensions = none := by rw [← hg, ← hf]; rfl
  -- the three keys are added one after another, each to fields that do not have it yet
  have hsources := foldlM_section (f := fun _ => none) .sources rfl sources
  have hexcludes := foldlM_section .excludes hf' excludes
  have hextensions := Manifest.add_word hg' [(e, true)]
  rw [hf] at hsources
  rw [hg] at hexcludes
  rw [List.map_append, List.foldlM_append, List.foldlM_append, hsources]
  simp only [Option.bind_eq_bind, Option.bind_some, hexcludes, List.foldlM_cons, List.foldlM_nil,
    hextensions, List.map_cons, List.map_nil]
  rfl

/-- A new manifest is read as what was written, if nothing in it needs an escape. -/
theorem readBy_manifestText {read : Yaml.Reader} (hreads : Yaml.ReadsSections read)
    (hextension : m.extensions = [e]) (he : IsWord e) (hexcludes : ∀ p ∈ m.excludes, Verbatim p)
    (hsources : ∀ d ∈ namedSources dirs, Verbatim d) :
    Manifest.readBy read (manifestText dirs m) = some { m with sources := namedSources dirs } := by
  have hfirst : IsWord Key.sources.word := by decide
  have hpatterns : IsWord Key.excludes.word := by decide
  have hlast : IsWord Key.extensions.word := by decide
  have hsections : ∀ e ∈ sectionOf Key.sources.word (namedSources dirs) ++
      sectionOf Key.excludes.word m.excludes, IsSection e.1 e.2 :=
    List.forall_mem_append.mpr ⟨isSection_of_mem_sectionOf hfirst hsources,
      isSection_of_mem_sectionOf hpatterns hexcludes⟩
  have hyaml := hreads _ _ _ hsections hlast he
  -- the text is not blank, which would stand for a manifest without any fields
  have hnonempty : (Text.trim (manifestText dirs m)).isEmpty = false := by
    have hmem : 'e' ∈ Text.despace (manifestText dirs m) := by
      have hword : 'e' ∈ Key.extensions.word := by decide
      refine List.mem_filter.mpr ⟨?_, by decide⟩
      rw [manifestText_eq hextension, lastText]
      exact List.mem_append_right _ (List.mem_append_left _ (List.mem_append_left _ hword))
    rw [← Text.despace_trim] at hmem
    rw [List.isEmpty_eq_false_iff]
    rintro hnil
    rw [hnil] at hmem
    cases hmem
  rw [Manifest.readBy, hnonempty, manifestText_eq hextension, hyaml]
  rw [if_neg Bool.false_ne_true, Option.bind_some, Manifest.ofYaml?]
  simp only [Yaml.entries?, Option.bind_eq_bind, Option.bind_some, foldlM_entries]
  simp [Fields.set, Manifest.default, getD_given, hextension]

end Command

end Docblock
