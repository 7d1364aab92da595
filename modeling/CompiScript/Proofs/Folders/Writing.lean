import CompiScript.Proofs.Folders.Search

namespace CompiScript

namespace Folder

variable {root entries : Folder} {name : String} {names : List String} {content : Text.Bytes}

theorem lookup_setEntry (root : Folder) (name other : String) (e : Entry) :
    (root.setEntry name e).lookup other = if other = name then some e else root.lookup other := by
  induction root with
  | nil =>
    by_cases h : other = name
    · simp [setEntry, h]
    · simp [setEntry, List.lookup_cons, beq_eq_false_iff_ne.mpr h, h]
  | cons entry rest ih =>
    obtain ⟨n, old⟩ := entry
    by_cases hn : n = name
    · subst hn
      by_cases h : other = n
      · simp [setEntry, h]
      · simp [setEntry, List.lookup_cons, beq_eq_false_iff_ne.mpr h, h]
    · by_cases h : other = n
      · subst h
        simp [setEntry, hn]
      · simp [setEntry, hn, List.lookup_cons, beq_eq_false_iff_ne.mpr h, ih]

def entryAt (root : Folder) : List String → Option Entry
  | [] => some (.folder root)
  | name :: names =>
    match root.lookup name with
    | none => none
    | some (.file content) => if names.isEmpty then some (.file content) else none
    | some (.folder entries) => entryAt entries names

theorem entryAt_singleton (root : Folder) (name : String) : root.entryAt [name] = root.lookup name := by
  rw [entryAt]
  split
  · next hlookup => exact hlookup.symm
  · next hlookup => exact hlookup.symm
  · next hlookup => exact hlookup.symm

theorem entryAt_cons_eq_file (h : root.entryAt (name :: names) = some (.file content)) :
    names = [] ∧ root.lookup name = some (.file content) ∨
      ∃ entries, names ≠ [] ∧ root.lookup name = some (.folder entries) ∧
        entryAt entries names = some (.file content) := by
  rw [entryAt] at h
  split at h
  · cases h
  · next hlookup =>
    split at h
    · next hempty =>
      cases h
      exact .inl ⟨List.isEmpty_iff.mp hempty, hlookup⟩
    · cases h
  · next entries hlookup =>
    refine .inr ⟨entries, ?_, hlookup, h⟩
    rintro rfl
    cases h

theorem put_folder (hnames : names ≠ []) (h : root.lookup name = some (.folder entries)) (e : Entry) :
    root.put (name :: names) e = root.setEntry name (.folder (put entries names e)) := by
  obtain ⟨next, rest, rfl⟩ := List.exists_cons_of_ne_nil hnames
  rw [put, h]
  exact nofun

theorem entryAt_put (h : root.entryAt names = some (.file content)) (content' : Text.Bytes) :
    (root.put names (.file content')).entryAt names = some (.file content') := by
  induction names generalizing root with
  | nil => cases h
  | cons name names ih =>
    obtain ⟨rfl, -⟩ | ⟨entries, hnames, hlookup, hentry⟩ := entryAt_cons_eq_file h
    · rw [put, entryAt, lookup_setEntry, if_pos rfl]
      rfl
    · rw [put_folder hnames hlookup, entryAt, lookup_setEntry, if_pos rfl]
      exact ih hentry

theorem entryAt_put_folder (h : root.entryAt names = some (.file content)) (content' : Text.Bytes)
    {way : List String} (hway : ∃ entries, root.entryAt way = some (.folder entries)) :
    ∃ entries, (root.put names (.file content')).entryAt way = some (.folder entries) := by
  induction names generalizing root way with
  | nil => cases h
  | cons name names ih =>
    cases way with
    | nil => exact ⟨_, rfl⟩
    | cons step way =>
      obtain ⟨rfl, hlookup⟩ | ⟨entries, hnames, hlookup, hentry⟩ := entryAt_cons_eq_file h
      · rw [put, entryAt, lookup_setEntry]
        by_cases hstep : step = name
        · -- a file stood there, and no folder
          subst hstep
          obtain ⟨entries, hentries⟩ := hway
          rw [entryAt, hlookup] at hentries
          dsimp only at hentries
          split at hentries <;> cases hentries
        · rw [if_neg hstep]
          exact hway
      · rw [put_folder hnames hlookup, entryAt, lookup_setEntry]
        by_cases hstep : step = name
        · subst hstep
          rw [entryAt, hlookup] at hway
          rw [if_pos rfl]
          exact ih hentry hway
        · rw [if_neg hstep]
          exact hway

inductive Stacked (root : Folder) : List String → List Folder → Folder → Prop
  | top : Stacked root [] [] root
  | into {way : List String} {outer : List Folder} {here entries : Folder} {name : String}
      (hhere : Stacked root way outer here) (hname : here.lookup name = some (.folder entries)) :
      Stacked root (way ++ [name]) (here :: outer) entries

namespace Stacked

variable {way : List String} {outer : List Folder} {here up : Folder}

theorem entryAt_append (h : Stacked root way outer here) (names : List String) :
    root.entryAt (way ++ names) = here.entryAt names := by
  induction h generalizing names with
  | top => rfl
  | @into way outer here entries name hhere hname ih =>
    rw [List.append_assoc, ih, List.singleton_append, Folder.entryAt, hname]

theorem back (h : Stacked root way (up :: outer) here) : Stacked root way.dropLast outer up := by
  cases h with
  | into hhere hname => rwa [List.dropLast_concat]

theorem outer_eq_nil_iff (h : Stacked root way outer here) : outer = [] ↔ way = [] := by
  cases h <;> simp

end Stacked

theorem entryAt_of_searchFrom {way : List String} {outer : List Folder} {here : Folder}
    (hhere : Stacked root way outer here) (h : searchFrom outer here names = .entry (.file content)) :
    root.entryAt (names.foldl Route.turn way) = some (.file content) := by
  induction names generalizing way outer here with
  | nil => cases h
  | cons name names ih =>
    rw [List.foldl_cons, Route.turn]
    by_cases hback : name = Route.back
    · subst hback
      rw [if_pos rfl]
      rw [searchFrom_back] at h
      cases outer with
      | nil =>
        cases hhere.outer_eq_nil_iff.mp rfl
        exact ih hhere h
      | cons up outer => exact ih hhere.back h
    · rw [if_neg hback]
      rw [searchFrom_cons hback] at h
      split at h
      · cases h
      · next hlookup =>
        split at h
        · next hempty =>
          cases h
          rwa [List.isEmpty_iff.mp hempty, List.foldl_nil, hhere.entryAt_append, entryAt_singleton]
        · cases h
      · next entries hlookup => exact ih (hhere.into hlookup) h

theorem searchFrom_of_entryAt {root' : Folder} {content' : Text.Bytes}
    (hfolders : ∀ way, (∃ entries, root.entryAt way = some (.folder entries)) →
      ∃ entries, root'.entryAt way = some (.folder entries))
    {way : List String} {outer outer' : List Folder} {here here' : Folder} (hhere : Stacked root way outer here)
    (hhere' : Stacked root' way outer' here') (h : searchFrom outer here names = .entry (.file content))
    (hfile : root'.entryAt (names.foldl Route.turn way) = some (.file content')) :
    searchFrom outer' here' names = .entry (.file content') := by
  induction names generalizing way outer outer' here here' with
  | nil => cases h
  | cons name names ih =>
    rw [List.foldl_cons, Route.turn] at hfile
    by_cases hback : name = Route.back
    · subst hback
      rw [if_pos rfl] at hfile
      rw [searchFrom_back] at h ⊢
      have houter : outer = [] ↔ outer' = [] := hhere.outer_eq_nil_iff.trans hhere'.outer_eq_nil_iff.symm
      cases outer with
      | nil =>
        cases houter.mp rfl
        cases hhere.outer_eq_nil_iff.mp rfl
        exact ih hhere hhere' h hfile
      | cons up outer =>
        cases outer' with
        | nil => exact absurd (houter.mpr rfl) (List.cons_ne_nil up outer)
        | cons up' outer' => exact ih hhere.back hhere'.back h hfile
    · rw [if_neg hback] at hfile
      rw [searchFrom_cons hback] at h ⊢
      split at h
      · cases h
      · next hlookup =>
        split at h
        · next hempty =>
          rw [List.isEmpty_iff.mp hempty, List.foldl_nil, hhere'.entryAt_append, entryAt_singleton] at hfile
          rw [hfile]
          exact if_pos hempty
        · cases h
      · next entries hlookup =>
        have hfolder : root.entryAt (way ++ [name]) = some (.folder entries) := by
          rwa [hhere.entryAt_append, entryAt_singleton]
        obtain ⟨entries', hlookup'⟩ := hfolders _ ⟨entries, hfolder⟩
        rw [hhere'.entryAt_append, entryAt_singleton] at hlookup'
        rw [hlookup']
        exact ih (hhere.into hlookup) (hhere'.into hlookup') h hfile

end Folder

theorem Files.find_put {files : Files} {path : String} {content : Text.Bytes}
    (h : files.find path = .entry (.file content)) (content' : Text.Bytes) :
    (files.putEntry path (.file content')).find path = .entry (.file content') := by
  obtain ⟨hpath, hsearch, hasked⟩ := search_of_find h
  have hentry : files.root.entryAt (Route.direct (files.way path)) = some (.file content) :=
    Folder.entryAt_of_searchFrom .top hsearch
  rw [find_eq_search hpath (hasked rfl)]
  exact Folder.searchFrom_of_entryAt (fun way => Folder.entryAt_put_folder hentry content') .top .top hsearch
    (Folder.entryAt_put hentry content')

end CompiScript
