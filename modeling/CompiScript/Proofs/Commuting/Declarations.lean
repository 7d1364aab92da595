import CompiScript.Proofs.Commuting.Beside

namespace CompiScript

open Syntax Step
variable {I : String → Prop} {F K : Frame}

def Standing.top (f : Frame) : Standing :=
  ⟨⟨f, [], 0⟩, false, false⟩

def Leads (ds : List Declaration) (f f' : Frame) : Prop :=
  ∃ g, execute (Declaration.stepsAll none ds) ⟨.top f, none⟩ = (none, g) ∧ g.toStanding = .top f'

theorem exists_top {ds : List Declaration} {g g' : Stage} {f : Frame} (hg : g.toStanding = .top f)
    (h : execute (Declaration.stepsAll none ds) g = (none, g')) : ∃ f', g'.toStanding = .top f' := by
  obtain ⟨g, type⟩ := g
  cases hg
  obtain ⟨hprint, hreturn⟩ := Program.execute_flags ⟨ds⟩ h rfl rfl
  have hsketch := execute_sketch h
  rw [Declaration.sketchAll_stepsAll] at hsketch
  have houter : g'.scopes.outer = [] := List.map_eq_nil_iff.mp (congrArg Sketch.outer hsketch)
  have hdepth : g'.scopes.depth = 0 := congrArg Sketch.depth hsketch
  obtain ⟨⟨⟨current, outer, depth⟩, inPrint, inReturn⟩, type'⟩ := g'
  cases houter
  cases hdepth
  cases hprint
  cases hreturn
  exact ⟨current, rfl⟩

theorem leads_iff {ds : List Declaration} {g : Stage} {f f' : Frame} (hg : g.toStanding = .top f) :
    Leads ds f f' ↔ ∃ g', execute (Declaration.stepsAll none ds) g = (none, g') ∧ g'.toStanding = .top f' := by
  have hstanding : (⟨.top f, none⟩ : Stage).toStanding = g.toStanding := hg.symm
  obtain ⟨herror, hend⟩ := Program.execute_congr ⟨ds⟩ hstanding
  constructor
  · rintro ⟨g', hrun, hg'⟩
    rw [Program.steps, hrun] at herror hend
    exact ⟨(execute (Declaration.stepsAll none ds) g).2, Prod.ext herror.symm rfl, hend.symm.trans hg'⟩
  · rintro ⟨g', hrun, hg'⟩
    rw [Program.steps, hrun] at herror hend
    exact ⟨(execute (Declaration.stepsAll none ds) ⟨.top f, none⟩).2, Prod.ext herror rfl, hend.trans hg'⟩

theorem leads_append (ds es : List Declaration) {f f' : Frame} :
    Leads (ds ++ es) f f' ↔ ∃ f₁, Leads ds f f₁ ∧ Leads es f₁ f' := by
  constructor
  · rintro ⟨g, hrun, hg⟩
    rw [Declaration.stepsAll_append] at hrun
    obtain ⟨g₁, hfirst, hrest⟩ := execute_append_ok hrun
    obtain ⟨f₁, hf₁⟩ := exists_top rfl hfirst
    exact ⟨f₁, ⟨g₁, hfirst, hf₁⟩, (leads_iff hf₁).mpr ⟨g, hrest, hg⟩⟩
  · rintro ⟨f₁, ⟨g₁, hfirst, hf₁⟩, hsecond⟩
    obtain ⟨g, hrest, hg⟩ := (leads_iff hf₁).mp hsecond
    refine ⟨g, ?_, hg⟩
    rw [Declaration.stepsAll_append]
    exact execute_trans hfirst hrest

theorem Leads.unique {ds : List Declaration} {f f' k' : Frame} (h : Leads ds f f') (h' : Leads ds f k') :
    f' = k' := by
  obtain ⟨g, hrun, hg⟩ := h
  obtain ⟨g', hrun', hg'⟩ := h'
  obtain ⟨-, rfl⟩ := Prod.mk.inj (hrun.symm.trans hrun')
  exact congrArg (fun s : Standing => s.scopes.current) (hg.symm.trans hg')

theorem Leads.parallel {ds : List Declaration} {f f' k : Frame} (h : Leads ds f f')
    (hds : ∀ t ∈ Declaration.trees ds, t.Within I) (hsame : ∀ x, I x → f.table.lookup x = k.table.lookup x) :
    ∃ k', Leads ds k k' ∧ Parallel I f k f' k' := by
  obtain ⟨g, hrun, hg⟩ := h
  have hbegin : Beside I f k ⟨.top f, none⟩ ⟨.top k, none⟩ :=
    ⟨rfl, rfl, rfl, rfl, .global (Parallel.refl_of_same hsame)⟩
  obtain ⟨h, hrun', hend⟩ := hbegin.run (Declaration.confined_global ds hds) hrun
  obtain ⟨k', hk'⟩ := exists_top rfl hrun'
  refine ⟨k', ⟨h, hrun', hk'⟩, ?_⟩
  have hchain := hend.chain
  have hf : g.scopes.chain = [f'] := congrArg (fun s : Standing => s.scopes.chain) hg
  have hk : h.scopes.chain = [k'] := congrArg (fun s : Standing => s.scopes.chain) hk'
  rw [hf, hk] at hchain
  cases hchain with
  | global hp => exact hp
  | inner hnil => cases hnil

structure Frame.Shuffled (f k : Frame) : Prop where
  name : f.name = k.name
  level : f.level = k.level
  lookup : ∀ x, f.table.lookup x = k.table.lookup x
  closed : f.closed.Perm k.closed

theorem Leads.shuffled {ds : List Declaration} {f f' k : Frame} (h : Leads ds f f') (hk : f.Shuffled k) :
    ∃ k', Leads ds k k' ∧ f'.Shuffled k' := by
  have hds : ∀ t ∈ Declaration.trees ds, t.Within fun _ => True := fun _ _ _ _ => trivial
  obtain ⟨k', hleads, hp⟩ := h.parallel hds fun x _ => hk.lookup x
  obtain ⟨more, hf', hk'⟩ := hp.closed
  refine ⟨k', hleads, ?_, ?_, fun x => hp.same x trivial, ?_⟩
  · rw [hp.name.1, hp.name.2, hk.name]
  · rw [hp.level.1, hp.level.2, hk.level]
  · rw [hf', hk']
    exact hk.closed.append_right more

theorem Declaration.within_identifiers (d : Declaration) :
    ∀ t ∈ Declaration.trees [d], t.Within fun x => x ∈ d.tree.identifiers := by
  intro t ht x hx
  rw [List.mem_singleton.mp ht] at hx
  exact hx

theorem Leads.swap {d₁ d₂ : Declaration} {f f' : Frame} (h : Leads [d₁, d₂] f f')
    (hdisjoint : ∀ x ∈ d₁.tree.identifiers, x ∉ d₂.tree.identifiers) :
    ∃ k', Leads [d₂, d₁] f k' ∧ f'.Shuffled k' := by
  let I₁ : String → Prop := fun x => x ∈ d₁.tree.identifiers
  let I₂ : String → Prop := fun x => x ∈ d₂.tree.identifiers
  have hI₁ : ∀ t ∈ Declaration.trees [d₁], t.Within I₁ := Declaration.within_identifiers d₁
  have hI₂ : ∀ t ∈ Declaration.trees [d₂], t.Within I₂ := Declaration.within_identifiers d₂
  have hother : ∀ x, I₂ x → ¬I₁ x := fun x h₂ h₁ => hdisjoint x h₁ h₂
  obtain ⟨f₁, hfirst, hsecond⟩ := (leads_append [d₁] [d₂]).mp h
  -- The second declaration comes to the same before the first one, and the first one after it.
  obtain ⟨_, -, halone⟩ := hfirst.parallel hI₁ (k := f) fun _ _ => rfl
  obtain ⟨f₂, hsecond', hp₂⟩ := hsecond.parallel hI₂ (k := f) fun x hx => halone.left x (hother x hx)
  obtain ⟨k', hfirst', hp₁⟩ := hfirst.parallel hI₁ (k := f₂) fun x hx => (hp₂.right x (hdisjoint x hx)).symm
  refine ⟨k', (leads_append [d₂] [d₁]).mpr ⟨f₂, hsecond', hfirst'⟩, ?_, ?_, ?_, ?_⟩
  · rw [hp₂.name.1, hp₁.name.1, hp₁.name.2, hp₂.name.2]
  · rw [hp₂.level.1, hp₁.level.1, hp₁.level.2, hp₂.level.2]
  · intro x
    by_cases h₁ : I₁ x
    · rw [hp₂.left x (hdisjoint x h₁), hp₁.same x h₁]
    · rw [hp₁.right x h₁]
      by_cases h₂ : I₂ x
      · exact hp₂.same x h₂
      · rw [hp₂.left x h₂, hp₁.left x h₁, hp₂.right x h₂]
  · obtain ⟨more₁, hf₁, hk'⟩ := hp₁.closed
    obtain ⟨more₂, hf', hf₂⟩ := hp₂.closed
    rw [hf', hf₁, hk', hf₂, List.append_assoc, List.append_assoc]
    exact List.perm_append_comm.append_left f.closed

theorem Leads.swap_between {before after : List Declaration} {d₁ d₂ : Declaration} {f f' : Frame}
    (h : Leads (before ++ d₁ :: d₂ :: after) f f')
    (hdisjoint : ∀ x ∈ d₁.tree.identifiers, x ∉ d₂.tree.identifiers) :
    ∃ k', Leads (before ++ d₂ :: d₁ :: after) f k' ∧ f'.Shuffled k' := by
  obtain ⟨f₁, hbefore, hrest⟩ := (leads_append before _).mp h
  obtain ⟨f₂, hboth, hafter⟩ := (leads_append [d₁, d₂] after).mp hrest
  obtain ⟨k₂, hboth', hk₂⟩ := hboth.swap hdisjoint
  obtain ⟨k', hafter', hk'⟩ := hafter.shuffled hk₂
  have hrest' : Leads (d₂ :: d₁ :: after) f₁ k' := (leads_append [d₂, d₁] after).mpr ⟨k₂, hboth', hafter'⟩
  exact ⟨k', (leads_append before _).mpr ⟨f₁, hbefore, hrest'⟩, hk'⟩

def Scope.Rearranged : Scope → Scope → Prop
  | .mk name level table children, .mk name' level' table' children' =>
    name = name' ∧ level = level' ∧ table.Perm table' ∧ children.Perm children'

theorem Table.perm_of_lookup {t u : Table} (ht : t.names.Nodup) (hu : u.names.Nodup)
    (h : ∀ x, t.lookup x = u.lookup x) : t.Perm u := by
  have hnodup : ∀ v : Table, v.names.Nodup → v.Nodup := fun v hv =>
    (List.pairwise_map.mp hv).imp fun hne heq => hne (congrArg Prod.fst heq)
  apply (List.perm_ext_iff_of_nodup (hnodup t ht) (hnodup u hu)).mpr
  rintro ⟨x, s⟩
  constructor
  · intro hx
    exact mem_of_lookup_eq_some ((h x).symm.trans (lookup_eq_some_of_mem ht hx))
  · intro hx
    exact mem_of_lookup_eq_some ((h x).trans (lookup_eq_some_of_mem hu hx))

theorem Frame.Shuffled.rearranged {f k : Frame} (h : f.Shuffled k) (hf : f.table.names.Nodup)
    (hk : k.table.names.Nodup) : (f.close none).Rearranged (k.close none) :=
  ⟨h.name, h.level, Table.perm_of_lookup hf hk h.lookup, h.closed.append_right _⟩

theorem leads_of_analyse {p : Program} {v : Value} {s : AnalysisState}
    (h : AnalysisState.start.analyse p.tree = (.ok v, s)) :
    ∃ f, Leads p.body (.opened "global" 0) f ∧ s.scopes.tree = f.close none ∧ f.table.names.Nodup := by
  obtain ⟨g, hrun, hstanding⟩ := execute_of_analyse h
  obtain ⟨f, hf⟩ := exists_top (f := .opened "global" 0) rfl hrun
  have hscopes : s.scopes = ⟨f, [], 0⟩ := congrArg Standing.scopes (hstanding.trans hf)
  have hdistinct : g.scopes.sketch.Distinct := execute_distinct hrun ⟨⟨List.nodup_nil, trivial⟩, trivial⟩
  refine ⟨f, ⟨g, hrun, hf⟩, ?_, ?_⟩
  · rw [hscopes]
    rfl
  · have hcurrent : g.scopes.current = f := congrArg (fun s : Standing => s.scopes.current) hf
    have hkeys := hdistinct.1.nodup
    rw [← f.table.keys_names, ← hcurrent]
    exact hkeys

theorem exists_analyse_of_leads {p : Program} {f : Frame} (h : Leads p.body (.opened "global" 0) f) :
    ∃ v s, AnalysisState.start.analyse p.tree = (.ok v, s) := by
  obtain ⟨g, hrun, -⟩ := h
  have houtcome := outcome_program .start p
  have hnone : (execute p.steps ⟨AnalysisState.start.standing, none⟩).1 = none := congrArg Prod.fst hrun
  rw [hnone, AnalysisState.outcome] at houtcome
  split at houtcome
  · next v s hanalyse => exact ⟨v, s, hanalyse⟩
  · cases houtcome

/-- Where two adjacent declarations at the top of a program have no identifier in common, the program with
the two in the other order is accepted exactly when the program is, and the scopes then differ only in the
order in which the global scope has its names and the scopes inside it. -/
theorem independent_declarations_commute {text : String} {d : Derived} (h : parseText .program text = .ok d) :
    (∃ p : Program, p.tree = d.tree) ∧ ∀ p : Program, p.tree = d.tree → ∀ before d₁ d₂ after,
      p.body = before ++ d₁ :: d₂ :: after → (∀ x ∈ d₁.tree.identifiers, x ∉ d₂.tree.identifiers) →
      ((∃ v s, AnalysisState.start.analyse d.tree = (.ok v, s)) ↔
        ∃ v s, AnalysisState.start.analyse (Program.tree ⟨before ++ d₂ :: d₁ :: after⟩) = (.ok v, s)) ∧
      ∀ v s v' s', AnalysisState.start.analyse d.tree = (.ok v, s) →
        AnalysisState.start.analyse (Program.tree ⟨before ++ d₂ :: d₁ :: after⟩) = (.ok v', s') →
        s.scopes.tree.Rearranged s'.scopes.tree := by
  refine ⟨parseText_program h, ?_⟩
  rintro ⟨body⟩ hp before d₁ d₂ after rfl hdisjoint
  rw [← hp]
  have hdisjoint' : ∀ x ∈ d₂.tree.identifiers, x ∉ d₁.tree.identifiers := fun x h₂ h₁ => hdisjoint x h₁ h₂
  constructor
  · constructor
    · rintro ⟨v, s, hrun⟩
      obtain ⟨f, hleads, -⟩ := leads_of_analyse hrun
      obtain ⟨k, hleads', -⟩ := hleads.swap_between hdisjoint
      exact exists_analyse_of_leads hleads'
    · rintro ⟨v, s, hrun⟩
      obtain ⟨f, hleads, -⟩ := leads_of_analyse hrun
      obtain ⟨k, hleads', -⟩ := hleads.swap_between hdisjoint'
      exact exists_analyse_of_leads hleads'
  · intro v s v' s' hrun hrun'
    obtain ⟨f, hleads, htree, hf⟩ := leads_of_analyse hrun
    obtain ⟨k, hleads', htree', hk⟩ := leads_of_analyse hrun'
    obtain ⟨k', hswapped, hshuffled⟩ := hleads.swap_between hdisjoint
    obtain rfl : k' = k := hswapped.unique hleads'
    rw [htree, htree']
    exact hshuffled.rearranged hf hk

def independentVariable : Declaration :=
  .variable ⟨.named "a", some (.ofPrimary (.number "1"))⟩

def independentFunction : Declaration :=
  .function (.named "f") (some ⟨.named "b", []⟩)
    [.statement (.giveBack (some (.ofPrimary (.name (.named "b")))))]

theorem independent_declarations_commute_before_use :
    ∃ d v s v' s', parseText .program "var a = 1; fun f(b) { return b; } print a;" = .ok d ∧
      AnalysisState.start.analyse d.tree = (.ok v, s) ∧
      AnalysisState.start.analyse (Program.tree ⟨[independentFunction, independentVariable,
        .statement (.print (.ofPrimary (.name (.named "a"))))]⟩) = (.ok v', s') ∧
      s.scopes.current.table.names = ["a", "f"] ∧ s'.scopes.current.table.names = ["f", "a"] ∧
      s.scopes.tree.Rearranged s'.scopes.tree := by
  let use : Declaration := .statement (.print (.ofPrimary (.name (.named "a"))))
  obtain ⟨d, hd, htree⟩ := exists_derived_tree "var a = 1; fun f(b) { return b; } print a;"
    ⟨[independentVariable, independentFunction, use]⟩ (by decide +kernel)
  have hfirst : (match AnalysisState.start.analyse
        (Program.tree ⟨[independentVariable, independentFunction, use]⟩) with
      | (.ok _, s) => decide (s.scopes.current.table.names = ["a", "f"])
      | _ => false) = true := by
    decide +kernel
  have hsecond : (match AnalysisState.start.analyse
        (Program.tree ⟨[independentFunction, independentVariable, use]⟩) with
      | (.ok _, s) => decide (s.scopes.current.table.names = ["f", "a"])
      | _ => false) = true := by
    decide +kernel
  rw [htree] at hfirst
  split at hfirst
  · next v s hrun =>
    split at hsecond
    · next v' s' hrun' =>
      have hcommute := (independent_declarations_commute hd).2 _ htree [] independentVariable independentFunction
        [use] rfl (by decide +kernel)
      exact ⟨d, v, s, v', s', hd, hrun, hrun', of_decide_eq_true hfirst, of_decide_eq_true hsecond,
        hcommute.2 v s v' s' hrun hrun'⟩
    · cases hsecond
  · cases hfirst

end CompiScript
