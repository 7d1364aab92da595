import Mathlib.Data.List.Nodup
import CompiScript.Files.Basic
import CompiScript.Proofs.Sketch.Distinct

namespace CompiScript

def IsName (name : String) : Prop :=
  name ≠ "" ∧ name ≠ "." ∧ name ≠ Route.back ∧ '/' ∉ name.toList

instance : DecidablePred IsName := fun _ =>
  inferInstanceAs (Decidable (_ ∧ _))

inductive Entry.Sound : Entry → Prop
  | file (content : Text.Bytes) : Sound (.file content)
  | folder {entries : List (String × Entry)} (hnames : ∀ e ∈ entries, IsName e.1)
      (hdistinct : (entries.map Prod.fst).Nodup) (hentries : ∀ e ∈ entries, Sound e.2) : Sound (.folder entries)

def Folder.Sound (entries : Folder) : Prop :=
  Entry.Sound (.folder entries)

def Files.Sound (files : Files) : Prop :=
  files.root.Sound

namespace Route

theorem splitSlash_ne_nil (cs : List Char) : splitSlash cs ≠ [] := by
  cases cs with
  | nil => simp [splitSlash]
  | cons c cs =>
    simp only [splitSlash]
    split
    · simp
    · split <;> simp

theorem splitSlash_append (front back : List Char) :
    splitSlash (front ++ '/' :: back) = splitSlash front ++ splitSlash back := by
  induction front with
  | nil => simp [splitSlash]
  | cons c cs ih =>
    by_cases hc : c = '/'
    · simp [splitSlash, hc, ih]
    · obtain ⟨word, words, hwords⟩ := List.exists_cons_of_ne_nil (splitSlash_ne_nil cs)
      simp [splitSlash, hc, ih, hwords]

theorem splitSlash_of_notMem {cs : List Char} (h : '/' ∉ cs) : splitSlash cs = [cs] := by
  induction cs with
  | nil => rfl
  | cons c cs ih =>
    rw [List.mem_cons, not_or] at h
    rw [splitSlash, if_neg (Ne.symm h.1), ih h.2]

def steps (words : List (List Char)) : List (List Char) :=
  words.filter fun w => !w.isEmpty && w ≠ ['.']

theorem steps_append (words more : List (List Char)) : steps (words ++ more) = steps words ++ steps more :=
  List.filter_append _ _

theorem exists_stem {path name : String} (hpath : path ≠ "") (hname : '/' ∉ name.toList) :
    ∃ stem, (Text.Path.join path name).toList = stem ++ '/' :: name.toList ∧
      steps (splitSlash path.toList) = steps (splitSlash stem) ∧ path.toList.head? = (stem ++ ['/']).head? := by
  have hhead : name.toList.head? ≠ some '/' := fun h => hname (List.mem_of_head? h)
  have hempty : path.isEmpty = false := by simpa using hpath
  rw [Text.Path.join, if_neg hhead, hempty, Bool.false_or]
  -- the path ends with a slash, or one is put behind it
  split
  · next hlast =>
    obtain ⟨stem, hstem⟩ := List.getLast?_eq_some_iff.mp (of_decide_eq_true hlast)
    refine ⟨stem, by simp [hstem], ?_, by rw [hstem]⟩
    rw [hstem, splitSlash_append]
    simp [steps, splitSlash]
  · refine ⟨path.toList, by simp, rfl, ?_⟩
    obtain ⟨c, cs, hcs⟩ := List.exists_cons_of_ne_nil (mt String.toList_eq_nil_iff.mp hpath)
    rw [hcs]
    rfl

theorem ofPath_join {path name : String} (hpath : path ≠ "") (hname : IsName name) :
    ofPath (Text.Path.join path name) = ⟨(ofPath path).names ++ [name], false, (ofPath path).absolute⟩ := by
  obtain ⟨hempty, hdot, -, hslash⟩ := hname
  obtain ⟨stem, hjoin, hsteps, hhead⟩ := exists_stem hpath hslash
  have hempty' : name.toList ≠ [] := mt String.toList_eq_nil_iff.mp hempty
  have hdot' : name.toList ≠ ['.'] := fun h => hdot (String.toList_inj.mp h)
  have hwords : splitSlash (Text.Path.join path name).toList = splitSlash stem ++ [name.toList] := by
    rw [hjoin, splitSlash_append, splitSlash_of_notMem hslash]
  have hnames : (steps (splitSlash stem ++ [name.toList])).map String.ofList =
      (steps (splitSlash path.toList)).map String.ofList ++ [name] := by
    have hstep : steps [name.toList] = [name.toList] := by simp [steps, hempty', hdot']
    rw [steps_append, hstep, hsteps, List.map_append, List.map_singleton, String.ofList_toList]
  have habsolute : (Text.Path.join path name).toList.head? = path.toList.head? := by
    rw [hjoin, hhead]
    cases stem <;> rfl
  unfold ofPath
  simp only [hwords, habsolute, mk.injEq]
  refine ⟨hnames, ?_, trivial⟩
  rw [List.getLast?_concat]
  simp [hempty', hdot']

end Route

namespace Folder

variable {outer : List Folder} {here entries : Folder} {names : List String} {name : String}

def held (entries : Folder) (name : String) : Found :=
  match entries.lookup name with
  | none => .missing
  | some e => .entry e

theorem searchFrom_back : searchFrom outer here (Route.back :: names) =
    match outer with
    | [] => searchFrom [] here names
    | up :: outer => searchFrom outer up names := by
  rw [searchFrom.eq_def]
  exact if_pos rfl

theorem searchFrom_cons (hname : name ≠ Route.back) : searchFrom outer here (name :: names) =
    match here.lookup name with
    | none => .missing
    | some (.file content) => if names.isEmpty then .entry (.file content) else .blocked
    | some (.folder entries) => searchFrom (here :: outer) entries names := by
  rw [searchFrom.eq_def]
  exact if_neg hname

theorem searchFrom_concat (h : searchFrom outer here names = .entry (.folder entries)) (hname : name ≠ Route.back) :
    searchFrom outer here (names ++ [name]) = entries.held name := by
  induction names generalizing outer here with
  | nil =>
    cases h
    rw [List.nil_append, searchFrom_cons hname, held]
    cases entries.lookup name with
    | none => rfl
    | some e => cases e <;> rfl
  | cons step names ih =>
    rw [List.cons_append]
    by_cases hback : step = Route.back
    · subst hback
      rw [searchFrom_back] at h ⊢
      cases outer with
      | nil => exact ih h
      | cons up outer => exact ih h
    · rw [searchFrom_cons hback] at h ⊢
      split at h
      · cases h
      · split at h <;> cases h
      · exact ih h

theorem Sound.distinct (hhere : here.Sound) : (∀ e ∈ here, IsName e.1) ∧ (here.map Prod.fst).Nodup := by
  cases hhere with
  | folder hnames hdistinct hentries => exact ⟨hnames, hdistinct⟩

theorem Sound.of_lookup (hhere : here.Sound) (h : here.lookup name = some (.folder entries)) : entries.Sound := by
  cases hhere with
  | folder hnames hdistinct hentries => exact hentries (name, .folder entries) (mem_of_lookup_eq_some h)

theorem Sound.searchFrom (hhere : here.Sound) (houter : ∀ up ∈ outer, Sound up)
    (h : searchFrom outer here names = .entry (.folder entries)) : entries.Sound := by
  induction names generalizing outer here with
  | nil =>
    cases h
    exact hhere
  | cons name names ih =>
    by_cases hback : name = Route.back
    · subst hback
      rw [searchFrom_back] at h
      cases outer with
      | nil => exact ih hhere houter h
      | cons up outer =>
        obtain ⟨hup, houter⟩ := List.forall_mem_cons.mp houter
        exact ih hup houter h
    · rw [searchFrom_cons hback] at h
      split at h
      · cases h
      · split at h <;> cases h
      · next entries' hlookup =>
        exact ih (hhere.of_lookup hlookup) (List.forall_mem_cons.mpr ⟨hhere, houter⟩) h

end Folder

namespace Files

variable {files : Files} {entries : Folder} {name path : String}

theorem way_join (files : Files) (hpath : path ≠ "") (hname : IsName name) :
    files.way (Text.Path.join path name) = files.way path ++ [name] := by
  rw [way, way, Route.ofPath_join hpath hname]
  dsimp only
  split
  · rfl
  · exact (List.append_assoc ..).symm

theorem find_eq_search (hpath : path ≠ "") (hasked : (Route.ofPath path).folderAsked = false) :
    files.find path = files.root.search (files.way path) := by
  have hempty : path.isEmpty = false := by simpa using hpath
  simp only [find, hempty, hasked, Bool.false_eq_true, if_false]
  split
  · next h => exact h.symm
  · rfl

theorem search_of_find {e : Entry} (h : files.find path = .entry e) :
    path ≠ "" ∧ files.root.search (files.way path) = .entry e ∧
      (e.isFile = true → (Route.ofPath path).folderAsked = false) := by
  unfold find at h
  split at h
  · cases h
  · next hpath =>
    refine ⟨by simpa using hpath, ?_⟩
    split at h
    · next hsearch =>
      split at h
      · cases h
      · next hasked =>
        cases h
        exact ⟨hsearch, fun _ => Bool.not_eq_true _ ▸ hasked⟩
    · next hother =>
      refine ⟨h, fun hfile => ?_⟩
      cases e with
      | file content => exact absurd h (hother content)
      | folder entries => cases hfile

theorem find_join (h : files.find path = .entry (.folder entries)) (hname : IsName name) :
    files.find (Text.Path.join path name) = entries.held name := by
  obtain ⟨hpath, hsearch, -⟩ := search_of_find h
  have hjoin : Text.Path.join path name ≠ "" := by
    obtain ⟨stem, hstem, -⟩ := Route.exists_stem hpath hname.2.2.2
    intro hempty
    rw [hempty] at hstem
    simp at hstem
  rw [find_eq_search hjoin (by rw [Route.ofPath_join hpath hname]), files.way_join hpath hname]
  exact Folder.searchFrom_concat hsearch hname.2.2.1

theorem Sound.of_find (hfiles : files.Sound) (h : files.find path = .entry (.folder entries)) : entries.Sound := by
  obtain ⟨-, hsearch, -⟩ := search_of_find h
  exact Folder.Sound.searchFrom hfiles (List.forall_mem_nil _) hsearch

theorem isFolder_iff : files.isFolder path = true ↔ ∃ entries, files.find path = .entry (.folder entries) := by
  cases h : files.find path with
  | entry e => cases e <;> simp [isFolder, h, Entry.isFolder]
  | missing => simp [isFolder, h]
  | blocked => simp [isFolder, h]

theorem list_of_find (h : files.find path = .entry (.folder entries)) :
    files.list path = .ok (entries.map Prod.fst) := by
  rw [list, h]

theorem list_eq_error (h : files.isFolder path = false) : ∃ e, files.list path = .error e := by
  unfold list
  split
  · next entries hfind => simp [isFolder, hfind, Entry.isFolder] at h
  · exact ⟨_, rfl⟩
  · exact ⟨_, rfl⟩
  · exact ⟨_, rfl⟩

end Files

end CompiScript
