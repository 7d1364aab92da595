import CompiScript.Proofs.Browsing.Watched

namespace CompiScript

namespace Workbench

theorem explorer_openPath (w : Workbench) (path : String) : (w.openPath path).explorer = w.explorer := by
  unfold openPath
  split <;> rfl

theorem explorer_step {w : Workbench} {e : Event} (hopen : ∀ answer, e ≠ .openFolder answer)
    (hexpand : ∀ place, e ≠ .expand place) : (w.step e).2.explorer = w.explorer := by
  cases e with
  | openFolder answer => exact absurd rfl (hopen answer)
  | expand place => exact absurd rfl (hexpand place)
  | compile debug =>
    simp only [step, compile]
    split <;> rfl
  | save =>
    simp only [step, save]
    split
    · rfl
    · split <;> rfl
  | openFile answer =>
    simp only [step, openFile]
    split
    · rfl
    · exact explorer_openPath _ answer
  | select place =>
    simp only [step, silent, select]
    split
    · rfl
    · dsimp only
      split
      · exact explorer_openPath _ _
      · rfl
  | put path content =>
    simp only [step, silent, putFile]
    split <;> rfl
  | remove path =>
    simp only [step, silent, removePath]
    split <;> rfl
  | type text => rfl
  | makeFolder path => rfl
  | read path => rfl

theorem explorer_openFolder (w : Workbench) {answer : String} (h : answer.isEmpty = false) :
    (w.openFolder answer).2.explorer = (Explorer.load w.files answer [0] [.mk answer []]).2 := by
  simp only [openFolder, h, Bool.false_eq_true, if_false]
  rfl

theorem pathOf_of_route {w : Workbench} {place : List Nat} {names : List String}
    (h : Explorer.route place w.explorer = some names) (hne : names ≠ []) :
    w.pathOf place = .ok (Text.Path.joinAll names) := by
  obtain ⟨name, names, rfl⟩ := List.exists_cons_of_ne_nil hne
  rw [pathOf, h]

theorem explorer_expand {w : Workbench} {place : List Nat} {path : String} (h : w.pathOf place = .ok path) :
    (w.expand place).2.explorer = (Explorer.load w.files path place w.explorer).2 := by
  rw [expand, h]
  rfl

theorem watched_step {w : Workbench} {l : Ledger} {e : Event} (h : Watched w.files w.explorer l)
    (hexpand : ∀ place, e = .expand place → ∃ o, l place = some o ∧ w.files.isFolder o.path = true) :
    Watched w.files (w.step e).2.explorer (l.note w e) := by
  let w' : Workbench := { w with dialogs := [] }
  cases e with
  | openFolder answer =>
    change Watched w.files (w'.openFolder answer).2.explorer (if answer.isEmpty then l else _)
    by_cases hanswer : answer.isEmpty = true
    · rw [if_pos hanswer, openFolder, if_pos hanswer]
      exact h
    · rw [if_neg hanswer, explorer_openFolder w' (Bool.eq_false_iff.mpr hanswer)]
      exact .opened w.files answer
  | expand place =>
    obtain ⟨o, ho, hfolder⟩ := hexpand place rfl
    obtain ⟨m, names, -, hroute, hne, hpath, -⟩ := h.at_place ho
    have hpathOf : ∀ v : Workbench, v.explorer = w.explorer → v.pathOf place = .ok o.path := by
      intro v hv
      rw [← hpath, pathOf_of_route (hv ▸ hroute) hne]
    obtain ⟨entries, hentries⟩ := Files.isFolder_iff.mp hfolder
    have hlist := Files.list_of_find hentries
    change Watched w.files (w'.expand place).2.explorer _
    rw [explorer_expand (hpathOf w' rfl), Ledger.note, hpathOf w rfl, Explorer.load, hlist]
    exact h.expanded ho hlist
  | _ =>
    rw [explorer_step (fun _ he => by cases he) (fun _ he => by cases he)]
    exact h

theorem watched_after {w : Workbench} {l : Ledger} {es : List Event} (h : Watched w.files w.explorer l)
    (hes : Browses w l es) : (w.after es).files = w.files ∧ Watched w.files (w.after es).explorer (l.after w es) := by
  induction es generalizing w l with
  | nil => exact ⟨rfl, h⟩
  | cons e es ih =>
    obtain ⟨hfiles, hexpand, hes⟩ := hes
    have hstep := watched_step h hexpand
    rw [← hfiles] at hstep ⊢
    exact ih hstep hes

theorem files_openFolder (w : Workbench) (answer : String) : (w.step (.openFolder answer)).2.files = w.files := by
  simp only [step, silent, openFolder]
  split <;> rfl

theorem files_expand (w : Workbench) (place : List Nat) : (w.step (.expand place)).2.files = w.files := by
  simp only [step, silent, expand]
  split <;> rfl

/-- While the files stay what they are, every node of the explorer is known with the path that the way to it spells, and
mirrors what is there, or it is the empty node of a folder that has not been expanded. The folder at the top is expanded
when it is opened. -/
theorem explorer_mirrors_files (files : Files) (hfiles : files.Sound) (es : List Event)
    (hes : Browses (start files) .empty es) :
    let w := (start files).after es
    let l := Ledger.empty.after (start files) es
    (∀ place n, w.explorer.node? place = some n →
      (∃ o, l place = some o ∧ w.pathOf place = .ok o.path ∧ Mirrors files l place o n) ∨
        l place = none ∧ n = .mk "" [] ∧ ∃ above o, place = above ++ [0] ∧ l above = some o ∧ o.expanded = false ∧
          files.isFolder o.path = true) ∧
      (∀ place o, l place = some o → ∃ n, w.explorer.node? place = some n) ∧
      ∀ o, l [0] = some o → o.expanded = true := by
  intro w l
  have hwatched : Watched files w.explorer l := (watched_after (w := start files) .nothing hes).2
  refine ⟨?_, ?_, ?_⟩
  · intro place n hn
    cases ho : l place with
    | none => exact .inr ⟨rfl, hwatched.unknown hn ho⟩
    | some o =>
      obtain ⟨m, names, hm, hroute, hne, hpath, hshows⟩ := hwatched.at_place ho
      cases hn.symm.trans hm
      refine .inl ⟨o, rfl, ?_, hshows.mirrors hfiles ho⟩
      rw [← hpath, pathOf_of_route hroute hne]
  · intro place o ho
    obtain ⟨m, names, hm, -⟩ := hwatched.at_place ho
    exact ⟨m, hm⟩
  · exact fun o ho => hwatched.root_expanded ho

theorem explorer_mirrors_files_nested :
    let files : Files := ⟨[("d", .folder [("a", .folder [("x", .file [])])])], []⟩
    let es : List Event := [.openFolder "d", .expand [0, 0], .expand [0], .expand [0, 0]]
    let w := (start files).after es
    files.Sound ∧ Browses (start files) .empty es ∧
      ∃ n, w.explorer.node? [0, 0] = some n ∧ w.pathOf [0, 0] = .ok "d/a" ∧
        Mirrors files (Ledger.empty.after (start files) es) [0, 0] ⟨"d/a", true⟩ n := by
  intro files es w
  have hfiles : files.Sound := by
    have hfolder : ∀ (name : String) (e : Entry), IsName name → e.Sound → Entry.Sound (.folder [(name, e)]) := by
      intro name e hname he
      exact .folder (List.forall_mem_singleton.mpr hname) (List.nodup_singleton name) (List.forall_mem_singleton.mpr he)
    have hname : IsName "d" ∧ IsName "a" ∧ IsName "x" := by decide
    exact hfolder _ _ hname.1 (hfolder _ _ hname.2.1 (hfolder _ _ hname.2.2 (.file [])))
  have hes : Browses (start files) .empty es := by
    refine ⟨files_openFolder _ _, nofun, files_expand _ _, ?_, files_expand _ _, ?_, files_expand _ _, ?_, trivial⟩
    · rintro _ ⟨⟩
      exact ⟨⟨"d/a", false⟩, by decide +kernel, by decide +kernel⟩
    · rintro _ ⟨⟩
      exact ⟨⟨"d", true⟩, by decide +kernel, by decide +kernel⟩
    · rintro _ ⟨⟩
      exact ⟨⟨"d/a", false⟩, by decide +kernel, by decide +kernel⟩
  have hknown : Ledger.empty.after (start files) es [0, 0] = some ⟨"d/a", true⟩ := by decide +kernel
  obtain ⟨hnodes, hfound, -⟩ := explorer_mirrors_files files hfiles es hes
  obtain ⟨n, hn⟩ := hfound _ _ hknown
  obtain ⟨o, ho, hpath, hmirrors⟩ | ⟨hnone, -⟩ := hnodes _ n hn
  · rw [hknown] at ho
    cases ho
    exact ⟨hfiles, hes, n, hn, hpath, hmirrors⟩
  · rw [hknown] at hnone
    cases hnone

end Workbench

end CompiScript
