import CompiScript.Proofs.Browsing.Ledger

namespace CompiScript

structure Mirrors (files : Files) (l : Ledger) (place : List Nat) (o : Origin) (n : Node) : Prop where
  file : files.isFolder o.path = false → n.children = []
  closed : files.isFolder o.path = true → o.expanded = false → n.children = [.mk "" []]
  opened : o.expanded = true → ∀ entries, files.find o.path = .entry (.folder entries) →
    files.list o.path = .ok (n.children.map Node.text) ∧ n.children.map Node.text = entries.map Prod.fst ∧
      (n.children.map Node.text).Nodup ∧
      ∀ i child, n.children[i]? = some child → ∃ e expanded, entries.lookup child.text = some e ∧
        files.find (Text.Path.join o.path child.text) = .entry e ∧
        l (place ++ [i]) = some ⟨Text.Path.join o.path child.text, expanded⟩

theorem Shows.mirrors {files : Files} {l : Ledger} {place : List Nat} {o : Origin} {n : Node} (hfiles : files.Sound)
    (h : Shows files (l.under place) o.path n) (ho : l place = some o) : Mirrors files l place o n := by
  have hsame : ∀ {expanded}, l.under place [] = some ⟨o.path, expanded⟩ → o.expanded = expanded := by
    intro expanded hown
    rw [Ledger.under, List.append_nil, ho] at hown
    exact congrArg Origin.expanded (Option.some.inj hown)
  cases h with
  | file hfile hown hbelow =>
    refine ⟨fun _ => rfl, fun hfolder => absurd (hfile.symm.trans hfolder) nofun, fun _ entries hentries => ?_⟩
    exact absurd (Files.isFolder_iff.mpr ⟨entries, hentries⟩) (Bool.eq_false_iff.mp hfile)
  | closed hfolder hown hbelow =>
    refine ⟨fun hfile => absurd (hfile.symm.trans hfolder) nofun, fun _ _ => rfl, fun hexpanded => ?_⟩
    exact absurd (hexpanded.symm.trans (hsame hown)) nofun
  | @opened _ _ _ children hlist hown hchildren hbelow =>
    refine ⟨fun hfile => ?_, fun _ hnot => ?_, fun _ entries hentries => ?_⟩
    · obtain ⟨e, he⟩ := Files.list_eq_error hfile
      rw [hlist] at he
      cases he
    · exact absurd ((hsame hown).symm.trans hnot) nofun
    · have htexts : children.map Node.text = entries.map Prod.fst := by
        rw [Files.list_of_find hentries] at hlist
        exact (Except.ok.inj hlist).symm
      obtain ⟨hnames, hdistinct⟩ := (hfiles.of_find hentries).distinct
      refine ⟨hlist, htexts, htexts ▸ hdistinct, fun i child hchild => ?_⟩
      obtain ⟨expanded, hknown⟩ := (hchildren i child hchild).own
      have hmem : child.text ∈ entries.map Prod.fst :=
        htexts ▸ List.mem_map_of_mem (List.mem_of_getElem? hchild)
      obtain ⟨⟨name, e⟩, he, hname⟩ := List.mem_map.mp hmem
      rw [← hname] at hknown ⊢
      have hlookup := lookup_eq_some_of_mem hdistinct he
      refine ⟨e, expanded, hlookup, ?_, hknown⟩
      rw [Files.find_join hentries (hnames _ he), Folder.held, hlookup]

inductive Watched (files : Files) : Explorer → Ledger → Prop
  | nothing : Watched files [] .empty
  | folder {l : Ledger} {root : Node} (hroot : Shows files (l.below 0) root.text root)
      (hexpanded : ∃ path, l [0] = some ⟨path, true⟩) (htop : l [] = none) (hbeside : ∀ i ≠ 0, l.below i = .empty) :
      Watched files [root] l

namespace Watched

variable {files : Files} {ns : Explorer} {l : Ledger} {place : List Nat} {o : Origin}

theorem root_expanded (h : Watched files ns l) (ho : l [0] = some o) : o.expanded = true := by
  cases h with
  | nothing => cases ho
  | folder hroot hexpanded htop hbeside =>
    obtain ⟨path, hpath⟩ := hexpanded
    rw [hpath] at ho
    cases ho
    rfl

theorem below_root (htop : l [] = none) (hbeside : ∀ i ≠ 0, l.below i = .empty) (ho : l place = some o) :
    ∃ rest, place = 0 :: rest := by
  cases place with
  | nil => exact absurd (htop.symm.trans ho) nofun
  | cons i rest =>
    by_cases hi : i = 0
    · exact ⟨rest, by rw [hi]⟩
    · have hnone := congrFun (hbeside i hi) rest
      exact absurd (hnone.symm.trans ho) nofun

theorem at_place (h : Watched files ns l) (ho : l place = some o) :
    ∃ m names, ns.node? place = some m ∧ Explorer.route place ns = some names ∧ names ≠ [] ∧
      Text.Path.joinAll names = o.path ∧ Shows files (l.under place) o.path m := by
  cases h with
  | nothing => cases ho
  | @folder l root hroot hexpanded htop hbeside =>
    obtain ⟨place, rfl⟩ := below_root htop hbeside ho
    obtain ⟨m, names, hm, hroute, hpath, hshows⟩ := hroot.at_place ho
    refine ⟨m, root.text :: names, hm, ?_, List.cons_ne_nil _ _, hpath, hshows⟩
    exact congrArg (Option.map (root.text :: ·)) hroute

theorem unknown {m : Node} (h : Watched files ns l) (hm : ns.node? place = some m) (hl : l place = none) :
    m = .mk "" [] ∧ ∃ above o, place = above ++ [0] ∧ l above = some o ∧ o.expanded = false ∧
      files.isFolder o.path = true := by
  cases h with
  | nothing =>
    cases place with
    | nil => cases hm
    | cons i place => cases hm
  | @folder l root hroot hexpanded htop hbeside =>
    cases place with
    | nil => cases hm
    | cons i place =>
      cases i with
      | succ i => cases hm
      | zero =>
        obtain ⟨hempty, above, o, rfl, habove, ho⟩ := hroot.unknown hm hl
        exact ⟨hempty, 0 :: above, o, rfl, habove, ho⟩

theorem opened (files : Files) (answer : String) :
    Watched files (Explorer.load files answer [0] [.mk answer []]).2 ((Ledger.root answer).load files answer [0]) := by
  have hroot : (Ledger.root answer).below 0 [] = some ⟨answer, false⟩ := rfl
  have hexpanded : (Ledger.root answer).load files answer [0] [0] = some ⟨answer, true⟩ := by
    simp [Ledger.load, Ledger.root]
  have hbeside : ∀ i ≠ 0, ((Ledger.root answer).load files answer [0]).below i = .empty := by
    intro i hi
    rw [Ledger.load_below_of_ne _ _ _ hi]
    funext p
    simp [Ledger.below, Ledger.root, hi, Ledger.empty]
  by_cases hfolder : files.isFolder answer = true
  · obtain ⟨entries, hentries⟩ := Files.isFolder_iff.mp hfolder
    have hlist := Files.list_of_find hentries
    rw [Explorer.load, hlist]
    refine .folder ?_ ⟨answer, hexpanded⟩ rfl hbeside
    rw [Ledger.load_below]
    exact Shows.loaded answer hroot hlist
  · have hfile := Bool.eq_false_iff.mpr hfolder
    obtain ⟨e, hlist⟩ := Files.list_eq_error hfile
    rw [Explorer.load, hlist]
    refine .folder (.file hfile hexpanded fun i => ?_) ⟨answer, hexpanded⟩ rfl hbeside
    rw [Ledger.load_below, Ledger.load_nil_below]
    apply Ledger.made_below_of_none
    rw [hlist]
    rfl

theorem expanded {names : List String} (h : Watched files ns l) (ho : l place = some o)
    (hlist : files.list o.path = .ok names) :
    Watched files (Explorer.setChildren (Explorer.entryNodes files o.path names) place ns)
      (l.load files o.path place) := by
  cases h with
  | nothing => cases ho
  | @folder l root hroot hexpanded htop hbeside =>
    obtain ⟨place, rfl⟩ := below_root htop hbeside ho
    rw [Explorer.setChildren_cons]
    apply Watched.folder
    · rw [Ledger.load_below, Node.text_putBelow]
      exact hroot.load ho hlist
    · obtain ⟨path, hpath⟩ := hexpanded
      refine ⟨path, ?_⟩
      by_cases hplace : place = []
      · simp [hplace, Ledger.load, hpath]
      · rw [← hpath]
        have hhead := Ledger.load_head files o.path (l.below 0) hplace
        rwa [← Ledger.load_below] at hhead
    · rw [Ledger.load_head _ _ _ (List.cons_ne_nil 0 place)]
      exact htop
    · intro i hi
      rw [Ledger.load_below_of_ne _ _ _ hi]
      exact hbeside i hi

end Watched

end CompiScript
