import Docblock.Project.Workspace
import Docblock.Proofs.Project.Path
import Docblock.Proofs.Project.Tree

/-!
# Reading and writing in a file tree

What a path leads to depends on where the directories are, and not on what is in the files.  So a
file can be given another text without any path leading elsewhere: `Workspace.write_of_read` says
that a file that can be read can be written, and that nothing else changes.
-/

namespace Docblock

/-! ## Section 1: Bytes of a text -/

namespace Text

theorem decode?_encode (s : Text) : decode? (encode s) = some s := by
  -- the bytes of a string are valid
  have hvalid : (String.ofList s).toUTF8.IsValidUTF8 := (String.ofList s).isValidUTF8
  have hstring : String.fromUTF8 (String.ofList s).toUTF8 hvalid = String.ofList s := rfl
  rw [decode?, encode, String.fromUTF8?, dif_pos hvalid, hstring, Option.map_some,
    String.toList_ofList]

/-- Bytes that decode to a text are its bytes. -/
theorem encode_of_decode? {bytes : ByteArray} {s : Text} (h : decode? bytes = some s) :
    encode s = bytes := by
  rw [decode?, String.fromUTF8?] at h
  split at h
  · next hvalid =>
    obtain rfl := Option.some.inj h
    rw [encode, String.ofList_toList]
    rfl
  · cases h

end Text

/-- So decoding succeeds with a text exactly on its bytes. -/
theorem Cause.decode_eq_ok_iff {bytes : ByteArray} {s : Text} :
    decode bytes = .ok s ↔ bytes = s.encode := by
  unfold decode
  constructor
  · intro h
    split at h
    · next text htext =>
      obtain rfl := Except.ok.inj h
      exact (Text.encode_of_decode? htext).symm
    · cases h
  · rintro rfl
    rw [Text.decode?_encode]

namespace Workspace

variable {w w' : Workspace} {path : Text} {names : List Text}

/-! ## Section 2: Where paths lead -/

/-- What stands at the end of some names, as far as a path to go on is concerned. -/
theorem get?_shape {t t' : Tree ByteArray} (h : t'.isDir? names = t.isDir? names) :
    t.get? names = none ∧ t'.get? names = none ∨
      (∃ entries entries', t.get? names = some (.dir entries) ∧ t'.get? names = some (.dir entries')) ∨
      ∃ bytes bytes', t.get? names = some (.file bytes) ∧ t'.get? names = some (.file bytes') := by
  unfold Tree.isDir? at h
  rcases ht : t.get? names with _ | _ | _ <;> rcases ht' : t'.get? names with _ | _ | _ <;>
    simp_all [Tree.isDir]

/-- Where a path leads depends only on what is a directory and what is a file. -/
theorem follow_congr {t t' : Tree ByteArray} (h : ∀ names, t'.isDir? names = t.isDir? names)
    (names parts : List Text) : follow t' names parts = follow t names parts := by
  -- induction on the parts of the path; one step looks up one place
  induction parts generalizing names with
  | nil => rfl
  | cons part parts ih =>
    rcases get?_shape (h names) with ⟨ht, ht'⟩ | ⟨_, _, ht, ht'⟩ | ⟨_, _, ht, ht'⟩
    · simp only [follow, ht, ht']
    · simp only [follow, ht, ht', ih]
    · simp only [follow, ht, ht']

/-- Two trees with their directories and files in the same places, seen from one directory. -/
structure SamePlaces (w w' : Workspace) : Prop where
  location : w'.location = w.location
  isDir? : ∀ names, w'.tree.isDir? names = w.tree.isDir? names

namespace SamePlaces

theorem refl (w : Workspace) : SamePlaces w w :=
  ⟨rfl, fun _ => rfl⟩

theorem trans {w'' : Workspace} (h : SamePlaces w w') (h' : SamePlaces w' w'') : SamePlaces w w'' :=
  ⟨h'.location.trans h.location, fun names => (h'.isDir? names).trans (h.isDir? names)⟩

theorem resolve (h : SamePlaces w w') (path : Text) : w'.resolve path = w.resolve path := by
  rw [Workspace.resolve, Workspace.resolve, h.location, follow_congr h.isDir?]

/-- A path reads the same if what it leads to is the same. -/
theorem read (h : SamePlaces w w')
    (hcontent : ∀ names, w.resolve path = .ok names → w'.tree.content? names = w.tree.content? names) :
    w'.read path = w.read path := by
  rw [Workspace.read, Workspace.read, readBytes, readBytes, h.resolve]
  cases hresolve : w.resolve path with
  | error cause => rfl
  | ok names =>
    have hsame := hcontent names hresolve
    rcases get?_shape (h.isDir? names) with ⟨ht, ht'⟩ | ⟨_, _, ht, ht'⟩ | ⟨bytes, bytes', ht, ht'⟩
    · -- nothing there, in both
      simp only [bind, Except.bind, ht, ht']
    · simp only [bind, Except.bind, ht, ht']
    · -- files on both sides, with the same contents
      rw [Tree.content?, Tree.content?, ht, ht', Option.some.injEq] at hsame
      simp only [bind, Except.bind, ht, ht', hsame]

end SamePlaces

/-! ## Section 3: What is read and written -/

/-- A text is read where its bytes are the contents of the file. -/
theorem read_eq_ok_iff {text : Text} :
    w.read path = .ok text ↔
      ∃ names, w.resolve path = .ok names ∧ w.tree.content? names = some text.encode := by
  rw [read, readBytes]
  cases w.resolve path with
  | error cause => simp [bind, Except.bind]
  | ok names =>
    simp only [bind, Except.bind, Except.ok.injEq, exists_eq_left', Tree.content?]
    rcases w.tree.get? names with _ | _ | _ <;> simp [Cause.decode_eq_ok_iff]

/-- A file that can be read can be given another text, and nothing else changes. -/
theorem write_of_read (ht : w.tree.Ordered) {old : Text} (h : w.read path = .ok old) (text : Text) :
    ∃ w', w.write path text = .ok w' ∧ SamePlaces w w' ∧ w'.tree.Ordered ∧
      w'.read path = .ok text ∧
      ∀ names, w.resolve path ≠ .ok names → w'.tree.content? names = w.tree.content? names := by
  obtain ⟨names, hresolve, hcontent⟩ := read_eq_ok_iff.mp h
  have hkind := Tree.isDir?_of_content? hcontent
  -- what is read is a file, so writing replaces its contents
  have hinsert := Tree.HasRoom.insert_spec ht (.inl hkind) text.encode
  -- a file has become a file, so no path leads elsewhere
  have hplaces : SamePlaces w { w with tree := w.tree.insert names (.file text.encode) } := by
    refine ⟨rfl, fun others => ?_⟩
    rw [(hinsert others).2]
    split
    · next hothers => rw [hothers, hkind]
    · rfl
  refine ⟨_, ?_, hplaces, ht.insert (.file _), ?_, ?_⟩
  · simp only [write, hresolve, bind, Except.bind, Tree.content?_eq_some_iff.mp hcontent]
  · rw [read_eq_ok_iff]
    exact ⟨names, (hplaces.resolve path).trans hresolve, by rw [(hinsert names).1, if_pos rfl]⟩
  · intro others hothers
    rw [hresolve] at hothers
    rw [(hinsert others).1, if_neg (fun heq => hothers (congrArg _ heq.symm))]

/-- A file can only be written where there is room for one. -/
theorem hasRoom_of_write {text : Text} (h : w.write path text = .ok w') :
    ∃ names, w.resolve path = .ok names ∧ w.tree.HasRoom names ∧
      w' = { w with tree := w.tree.insert names (.file text.encode) } := by
  rw [write] at h
  cases hresolve : w.resolve path with
  | error cause =>
    rw [hresolve] at h
    cases h
  | ok names =>
    rw [hresolve] at h
    simp only [bind, Except.bind] at h
    -- a file is replaced, and a directory is not
    unfold Tree.HasRoom Tree.isDir?
    rcases hget : w.tree.get? names with _ | _ | _ <;> rw [hget] at h
    · -- nothing stands there: its directory has to
      rcases hhome : w.tree.get? names.dropLast with _ | _ | _ <;> rw [hhome] at h
      · cases h
      · cases h
      · exact ⟨names, rfl, .inr (by simp [hget, hhome, Tree.isDir]), (Except.ok.inj h).symm⟩
    · exact ⟨names, rfl, .inl (by simp [hget, Tree.isDir]), (Except.ok.inj h).symm⟩
    · cases h

/-! ## Section 4: Paths below a path -/

/-- Following a path is following its front and then its back. -/
theorem follow_append (t : Tree ByteArray) (names front back : List Text) :
    follow t names (front ++ back) = (follow t names front).bind (follow t · back) := by
  induction front generalizing names with
  | nil => rfl
  -- each step goes on from the place the one before has led to
  | cons part front ih =>
    rw [List.cons_append, follow, follow]
    split
    · rfl
    · rfl
    · split
      · exact ih names
      · split
        · exact ih names.dropLast
        · exact ih (names ++ [part])

/-- A path leads on where it led before if all directories are still there. -/
theorem follow_of_isDir? {t t' : Tree ByteArray} {parts found : List Text}
    (hdirs : ∀ names, t.isDir? names = some true → t'.isDir? names = some true)
    (h : follow t names parts = .ok found) : follow t' names parts = .ok found := by
  induction parts generalizing names with
  | nil => exact h
  | cons part parts ih =>
    rw [follow] at h
    split at h
    · cases h
    · cases h
    · next entries hget =>
      -- the way goes through directories only, and these have stayed
      have hdir := Tree.isDir?_eq_some_true_iff.mpr ⟨entries, hget⟩
      obtain ⟨entries', hget'⟩ := Tree.isDir?_eq_some_true_iff.mp (hdirs names hdir)
      rw [follow, hget']
      -- an idle part stays, two dots go up, and a name goes down
      split_ifs at h ⊢ with hidle hdots
      · exact ih h
      · exact ih h
      · exact ih h

/-- Where the stem of a path leads. -/
def resolveStem (w : Workspace) (root : Text) : Except Cause (List Text) :=
  follow w.tree (if Path.isAbsolute root then [] else w.location) (Path.stem root)

theorem resolve_join {root rest : Text} (hroot : root ≠ []) (hrest : Path.isAbsolute rest = false) :
    w.resolve (Path.join root rest) = (w.resolveStem root).bind (follow w.tree · (Path.split rest)) := by
  have hempty : (Path.join root rest).isEmpty = false := by simpa using Path.join_ne_nil hroot
  rw [resolve, hempty, if_neg Bool.false_ne_true, Path.isAbsolute_join hroot hrest,
    Path.split_join hroot hrest, follow_append]
  rfl

/-- The directory `entries` stands at `place`, and `root` is a path to it. -/
structure IsAt (w : Workspace) (root : Text) (place : List Text)
    (entries : List (Text × Tree ByteArray)) : Prop where
  ne_nil : root ≠ []
  resolveStem : w.resolveStem root = .ok place
  get? : w.tree.get? place = some (.dir entries)

namespace IsAt

variable {root name : Text} {place : List Text} {entries : List (Text × Tree ByteArray)}

/-- What an entry is joined to is the path of a directory. -/
theorem of_resolve_join (hroot : root ≠ []) (hname : Path.IsName name)
    (h : w.resolve (Path.join root name) = .ok names) :
    ∃ place entries, IsAt w root place entries ∧ names = place ++ [name] := by
  rw [resolve_join hroot hname.isAbsolute, Path.split_of_no_slash hname.no_slash] at h
  cases hstem : w.resolveStem root with
  | error cause =>
    rw [hstem] at h
    cases h
  | ok place =>
    rw [hstem] at h
    change follow w.tree place [name] = .ok names at h
    rw [follow] at h
    split at h
    · cases h
    · cases h
    · -- a name leads to an entry of a directory
      next entries hget =>
      rw [hname.not_isIdle, if_neg Bool.false_ne_true, if_neg hname.ne_dots] at h
      exact ⟨place, entries, ⟨hroot, hstem, hget⟩, (Except.ok.inj h).symm⟩

/-- Idle parts lead nowhere else. -/
theorem follow_idle (h : IsAt w root place entries) {idle : List Text}
    (hidle : ∀ part ∈ idle, Path.isIdle part = true) : follow w.tree place idle = .ok place := by
  induction idle with
  | nil => rfl
  | cons part idle ih =>
    obtain ⟨hpart, hidle⟩ := List.forall_mem_cons.mp hidle
    rw [follow, h.get?]
    simp only [hpart, if_true]
    exact ih hidle

theorem follow_name (h : IsAt w root place entries) (hname : Path.IsName name) (parts : List Text) :
    follow w.tree place (name :: parts) = follow w.tree (place ++ [name]) parts := by
  rw [follow, h.get?]
  simp only [hname.not_isIdle, Bool.false_eq_true, if_false, if_neg hname.ne_dots]

/-- The directory itself is found under its own path. -/
theorem look?_self (h : IsAt w root place entries) : w.look? root = some (.dir entries) := by
  obtain ⟨idle, hidle, hsplit⟩ := Path.exists_split_eq_stem root
  have hempty : root.isEmpty = false := by simpa using h.ne_nil
  -- the idle parts at the end of the path lead nowhere else
  have hresolve : w.resolve root = .ok place := by
    rw [resolve, hempty, if_neg Bool.false_ne_true, hsplit, follow_append]
    have hstem := h.resolveStem
    rw [Workspace.resolveStem] at hstem
    rw [hstem]
    exact h.follow_idle hidle
  rw [look?, hresolve]
  exact h.get?

theorem look?_dot (h : IsAt w root place entries) :
    w.look? (Path.join root ['.']) = some (.dir entries) := by
  have hresolve : w.resolve (Path.join root ['.']) = .ok place := by
    rw [resolve_join h.ne_nil rfl, h.resolveStem]
    exact h.follow_idle (by simp [Path.split, Path.isIdle])
  rw [look?, hresolve]
  exact h.get?

theorem resolve_entry (h : IsAt w root place entries) (hname : Path.IsName name) :
    w.resolve (Path.join root name) = .ok (place ++ [name]) := by
  rw [resolve_join h.ne_nil hname.isAbsolute, h.resolveStem, Path.split_of_no_slash hname.no_slash]
  exact h.follow_name hname []

theorem get?_entry (h : IsAt w root place entries) (name : Text) :
    w.tree.get? (place ++ [name]) = entries.lookup name := by
  rw [Tree.get?_append, h.get?]
  change (entries.lookup name).bind _ = _
  cases entries.lookup name <;> rfl

/-- A directory can be named with a slash at the end. -/
theorem look?_slash (h : IsAt w root place entries) (hname : Path.IsName name)
    {below : List (Text × Tree ByteArray)} (hbelow : entries.lookup name = some (.dir below)) :
    w.look? (Path.join root (name ++ ['/'])) = some (.dir below) := by
  have habsolute : Path.isAbsolute (name ++ ['/']) = false := by
    obtain ⟨c, rest, rfl⟩ := List.exists_cons_of_ne_nil hname.ne_nil
    exact hname.isAbsolute
  have hget := (h.get?_entry name).trans hbelow
  -- the slash adds an empty part, which is idle
  have hresolve : w.resolve (Path.join root (name ++ ['/'])) = .ok (place ++ [name]) := by
    have hsplit : Path.split (name ++ ['/']) = [name, []] := by
      rw [Path.split_append_slash, Path.split_of_no_slash hname.no_slash]
      rfl
    rw [resolve_join h.ne_nil habsolute, h.resolveStem, hsplit]
    change follow w.tree place [name, []] = _
    rw [h.follow_name hname, follow, hget]
    rfl
  rw [look?, hresolve]
  exact hget

/-- The directory after a file has been written into it. -/
theorem of_write (h : IsAt w root place entries) (ht : w.tree.Ordered)
    (hname : Path.IsName name) {text : Text} (hwrite : w.write (Path.join root name) text = .ok w') :
    IsAt w' root place (Tree.upsert name (fun _ => .file text.encode) entries) ∧
      w'.read (Path.join root name) = .ok text ∧ ∀ below, (name, .dir below) ∉ entries := by
  obtain ⟨names, hresolve, hroom, rfl⟩ := hasRoom_of_write hwrite
  obtain rfl := Except.ok.inj ((h.resolve_entry hname).symm.trans hresolve)
  have hinsert := Tree.HasRoom.insert_spec ht hroom text.encode
  -- there was room for a file, so no directory stood there
  have hfile : w.tree.isDir? (place ++ [name]) ≠ some true := by
    rcases hroom with hroom | ⟨hroom, -⟩ <;> simp [hroom]
  -- directories stay directories
  have hdirs : ∀ names, w.tree.isDir? names = some true →
      (w.tree.insert (place ++ [name]) (.file text.encode)).isDir? names = some true := by
    intro names hnames
    have hne : names ≠ place ++ [name] := by
      rintro rfl
      exact hfile hnames
    rw [(hinsert names).2, if_neg hne, hnames]
  -- the way to the directory leads through directories still
  have hat : IsAt { w with tree := w.tree.insert (place ++ [name]) (.file text.encode) } root place
      (Tree.upsert name (fun _ => .file text.encode) entries) :=
    ⟨h.ne_nil, follow_of_isDir? hdirs h.resolveStem, ht.get?_insert_concat h.get?⟩
  refine ⟨hat, ?_, fun below hmem => ?_⟩
  · rw [read_eq_ok_iff]
    exact ⟨_, hat.resolve_entry hname, by rw [(hinsert _).1, if_pos rfl]⟩
  · -- a directory of the same name would have stood in the way
    have hlookup := Tree.lookup_of_mem (ht.of_get? h.get?).of_dir.1 hmem
    rw [← h.get?_entry] at hlookup
    exact hfile (Tree.isDir?_eq_some_true_iff.mpr ⟨below, hlookup⟩)

end IsAt

end Workspace

end Docblock
