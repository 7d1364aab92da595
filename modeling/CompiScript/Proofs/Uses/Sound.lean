import CompiScript.Proofs.Uses.Sites

namespace CompiScript

open Syntax

def Sketch.Within (k : Sketch) (names : List (String × Category)) : Prop :=
  ∀ x c, k.Has x c → (x, c) ∈ names

namespace Sketch.Within

variable {k : Sketch} {names : List (String × Category)}

theorem enter (h : k.Within names) (scope : String) : (k.enter scope).Within names := by
  rintro x c ⟨o, ho, hx⟩
  rcases List.mem_cons.mp ho with rfl | hmem
  · cases hx
  · exact h x c ⟨o, hmem, hx⟩

theorem extend (h : k.Within names) (ks : List (String × Category)) (os : List Outline) :
    (k.extend ks os).Within (ks ++ names) := by
  obtain ⟨⟨name, level, keys, children⟩, outer, depth⟩ := k
  rintro x c ⟨o, ho, hx⟩
  rcases List.mem_cons.mp ho with rfl | hmem
  · rcases List.mem_append.mp hx with hold | hnew
    · exact List.mem_append_right _ (h x c ⟨_, .head _, hold⟩)
    · exact List.mem_append_left _ hnew
  · exact List.mem_append_right _ (h x c ⟨o, .tail _ hmem, hx⟩)

end Sketch.Within

namespace Syntax

section Sound

variable {names : List (String × Category)} {g g' : Stage}

theorem Expression.site_sound {e : Expression} (h : execute e.steps g = (none, g'))
    (hk : g.scopes.sketch.Within names) : Site.Sound ⟨names, e⟩ :=
  fun x hx => hk x .variables (e.seen_has h hx)

theorem Expression.sketch_of_execute {e : Expression} (h : execute e.steps g = (none, g')) :
    g'.scopes.sketch = g.scopes.sketch := by
  rw [execute_sketch h, e.sketchAll_steps]

theorem VarDecl.sites_sound {v : VarDecl} (h : execute v.steps g = (none, g'))
    (hk : g.scopes.sketch.Within names) : ∀ site ∈ v.sites names, site.Sound := by
  obtain ⟨name, value⟩ := v
  cases value with
  | none => exact fun site hsite => nomatch hsite
  | some e =>
    intro site hsite
    rw [List.mem_singleton.mp hsite]
    obtain ⟨g₁, hdeclare, hrest⟩ := execute_cons_ok h
    obtain ⟨g₂, he, -⟩ := execute_append_ok hrest
    refine Expression.site_sound he ?_
    rw [Step.run_sketch hdeclare]
    exact hk.extend [(name.text, .variables)] []

theorem headSteps_sound {es : List Expression} (hes : es.length ≤ 2) (h : execute (headSteps es) g = (none, g'))
    (hk : g.scopes.sketch.Within names) : ∀ e ∈ es, Site.Sound ⟨names, e⟩ := by
  match es with
  | [] => exact fun e he => nomatch he
  | [c] =>
    obtain ⟨g₁, hc, -⟩ := execute_append_ok h
    intro e he
    rw [List.mem_singleton.mp he]
    exact Expression.site_sound hc hk
  | [c, u] =>
    obtain ⟨g₁, hc, hrest⟩ := execute_append_ok h
    obtain ⟨g₂, hrequire, hu⟩ := execute_cons_ok hrest
    have hsame : g₂.scopes.sketch = g.scopes.sketch :=
      (Step.run_sketch hrequire).trans (Expression.sketch_of_execute hc)
    intro e he
    rcases List.mem_cons.mp he with rfl | hmem
    · exact Expression.site_sound hc hk
    · rw [List.mem_singleton.mp hmem]
      exact Expression.site_sound hu (hsame ▸ hk)
  | _ :: _ :: _ :: _ =>
    -- A head has a condition and an update at most.
    simp at hes

theorem ForHead.sites_sound {head : ForHead} (h : execute head.steps g = (none, g'))
    (hk : g.scopes.sketch.Within names) : ∀ site ∈ head.sites names, site.Sound := by
  obtain ⟨init, condition, update⟩ := head
  obtain ⟨g₁, hinit, hhead⟩ := execute_append_ok h
  have hk₁ : g₁.scopes.sketch.Within (init.keys ++ names) := by
    -- The initialisation alone is a head without a condition and an update.
    have hsketch := ForHead.sketchAll_steps ⟨init, none, none⟩ g.scopes.sketch
    simp only [ForHead.steps, Option.toList, List.append_nil, headSteps] at hsketch
    rw [execute_sketch hinit, hsketch]
    exact hk.extend init.keys []
  intro site hsite
  rcases List.mem_append.mp hsite with hfirst | hothers
  · cases init with
    | «variable» v => exact v.sites_sound hinit hk site hfirst
    | expression e =>
      rw [List.mem_singleton.mp hfirst]
      exact Expression.site_sound hinit hk
    | nothing => cases hfirst
  · obtain ⟨e, he, rfl⟩ := List.mem_map.mp hothers
    refine headSteps_sound ?_ hhead hk₁ e he
    cases condition <;> cases update <;> simp

theorem execute_condition_ok {e : Expression} {place : String} {more : List Step}
    (h : execute (e.steps ++ .require place :: more) g = (none, g')) (hk : g.scopes.sketch.Within names) :
    Site.Sound ⟨names, e⟩ ∧ ∃ g₁, execute more g₁ = (none, g') ∧ g₁.scopes.sketch = g.scopes.sketch := by
  obtain ⟨g₁, he, hrest⟩ := execute_append_ok h
  obtain ⟨g₂, hrequire, hmore⟩ := execute_cons_ok hrest
  exact ⟨Expression.site_sound he hk, g₂, hmore,
    (Step.run_sketch hrequire).trans (Expression.sketch_of_execute he)⟩

mutual

theorem Statement.sites_sound {scope owner : Option String} {names : List (String × Category)} {g g' : Stage}
    (hk : g.scopes.sketch.Within names) : ∀ s : Statement, execute (s.steps scope owner) g = (none, g') →
    ∀ site ∈ s.sites names, site.Sound
  | .expression e, h => by
    intro site hsite
    rw [List.mem_singleton.mp hsite]
    exact Expression.site_sound h hk
  | .forLoop head body, h => by
    rw [Statement.steps, List.append_assoc] at h
    obtain ⟨g₁, henter, hrest⟩ := execute_cons_ok h
    obtain ⟨g₂, hhead, hrest⟩ := execute_append_ok hrest
    obtain ⟨g₃, hinside, hrest⟩ := execute_cons_ok hrest
    obtain ⟨g₄, hbody, -⟩ := execute_append_ok hrest
    have hk₁ : g₁.scopes.sketch.Within names := by
      rw [Step.run_sketch henter]
      exact hk.enter _
    have hk₃ : g₃.scopes.sketch.Within (head.init.keys ++ names) := by
      rw [Step.run_sketch hinside, execute_sketch hhead, head.sketchAll_steps]
      exact (hk₁.extend _ _).enter _
    intro site hsite
    rcases List.mem_append.mp hsite with hin | hin
    · exact ForHead.sites_sound hhead hk₁ site hin
    · exact Statement.sites_sound hk₃ body hbody site hin
  | .ifThen condition yes, h => by
    obtain ⟨hcondition, g₁, hyes, hsame⟩ := execute_condition_ok h hk
    intro site hsite
    rcases List.mem_cons.mp hsite with rfl | hin
    · exact hcondition
    · exact Statement.sites_sound (hsame ▸ hk) yes hyes site hin
  | .ifElse condition yes no, h => by
    rw [Statement.steps, List.append_assoc] at h
    obtain ⟨hcondition, g₁, hrest, hsame⟩ := execute_condition_ok h hk
    obtain ⟨g₂, hyes, hno⟩ := execute_append_ok hrest
    have hk₂ : g₂.scopes.sketch.Within names := by
      rw [execute_sketch hyes, yes.sketchAll_steps, hsame]
      exact hk.extend [] _
    intro site hsite
    rcases List.mem_cons.mp hsite with rfl | hin
    · exact hcondition
    · rcases List.mem_append.mp hin with hin | hin
      · exact Statement.sites_sound (hsame ▸ hk) yes hyes site hin
      · exact Statement.sites_sound hk₂ no hno site hin
  | .print e, h => by
    obtain ⟨g₁, hbegin, hrest⟩ := execute_cons_ok h
    obtain ⟨g₂, he, -⟩ := execute_append_ok hrest
    intro site hsite
    rw [List.mem_singleton.mp hsite]
    exact Expression.site_sound he ((Step.run_sketch hbegin) ▸ hk)
  | .giveBack none, _ => fun site hsite => nomatch hsite
  | .giveBack (some e), h => by
    obtain ⟨g₁, he, -⟩ := execute_append_ok h
    intro site hsite
    rw [List.mem_singleton.mp hsite]
    exact Expression.site_sound he hk
  | .whileLoop condition body, h => by
    obtain ⟨hcondition, g₁, hbody, hsame⟩ := execute_condition_ok h hk
    intro site hsite
    rcases List.mem_cons.mp hsite with rfl | hin
    · exact hcondition
    · exact Statement.sites_sound (hsame ▸ hk) body hbody site hin
  | .block body, h => by
    obtain ⟨g₁, henter, hrest⟩ := execute_cons_ok h
    obtain ⟨g₂, hbody, -⟩ := execute_append_ok hrest
    refine Declaration.sitesAll_sound ?_ body hbody
    rw [Step.run_sketch henter]
    exact hk.enter _

theorem Declaration.sites_sound {owner : Option String} {names : List (String × Category)} {g g' : Stage}
    (hk : g.scopes.sketch.Within names) : ∀ d : Declaration, execute (d.steps owner) g = (none, g') →
    ∀ site ∈ d.sites names, site.Sound
  | .classType _, _ => fun site hsite => nomatch hsite
  | .function name params body, h => by
    rw [Declaration.steps, List.append_assoc] at h
    obtain ⟨g₁, hdeclare, hrest⟩ := execute_cons_ok h
    obtain ⟨g₂, henter, hrest⟩ := execute_cons_ok hrest
    obtain ⟨g₃, hparams, hrest⟩ := execute_append_ok hrest
    obtain ⟨g₄, hinside, hrest⟩ := execute_cons_ok hrest
    obtain ⟨g₅, hbody, -⟩ := execute_append_ok hrest
    refine Declaration.sitesAll_sound ?_ body hbody
    rw [Step.run_sketch hinside, execute_sketch hparams, Params.sketchAll_steps, Step.run_sketch henter,
      Step.run_sketch hdeclare]
    exact (((hk.extend [(name.text, .functions)] []).enter _).extend _ _).enter _
  | .variable v, h => v.sites_sound h hk
  | .statement s, h => Statement.sites_sound hk s h

theorem Declaration.sitesAll_sound {owner : Option String} {names : List (String × Category)} {g g' : Stage}
    (hk : g.scopes.sketch.Within names) : ∀ ds : List Declaration,
    execute (Declaration.stepsAll owner ds) g = (none, g') → ∀ site ∈ Declaration.sitesAll names ds, site.Sound
  | [], _ => fun site hsite => nomatch hsite
  | d :: ds, h => by
    obtain ⟨g₁, hd, hds⟩ := execute_append_ok h
    have hk₁ : g₁.scopes.sketch.Within (d.keys ++ names) := by
      rw [execute_sketch hd, d.sketchAll_steps]
      exact hk.extend _ _
    intro site hsite
    rcases List.mem_append.mp hsite with hin | hin
    · exact Declaration.sites_sound hk d hd site hin
    · exact Declaration.sitesAll_sound hk₁ ds hds site hin

end

end Sound

theorem Program.uses_tree (p : Program) : p.tree.uses = siteUses p.sites := by
  rw [tree, Tree.uses_node _ (by decide), Tree.usesAll_append, Declaration.usesAll_trees []]
  exact List.append_nil _

theorem Program.sites_sound {p : Program} {g : Stage} (h : execute p.steps .start = (none, g)) :
    ∀ site ∈ p.sites, site.Sound := by
  refine Declaration.sitesAll_sound ?_ p.body h
  rintro x c ⟨o, ho, hx⟩
  rw [List.mem_singleton.mp ho] at hx
  cases hx

end Syntax

/-- In a program without an error, all uses are of names declared before exactly where those that are
not seen are. -/
theorem accepted_uses {text : String} {d : Derived} (h : parseText .program text = .ok d) :
    ∃ p : Program, p.tree = d.tree ∧ d.tree.uses = siteUses p.sites ∧
      ∀ v s, AnalysisState.start.analyse d.tree = (.ok v, s) → ∀ site ∈ p.sites,
        (∀ x, x ∈ site.expression.tree.uses ↔ x ∈ site.expression.seen ∨ x ∈ site.expression.unseen) ∧
        (∀ x ∈ site.expression.seen, (x, .variables) ∈ site.names) ∧
        ((∀ x ∈ site.expression.tree.uses, site.Declares x) ↔
          ∀ x ∈ site.expression.unseen, site.Declares x) := by
  obtain ⟨p, hp⟩ := parseText_program h
  rw [← hp]
  refine ⟨p, rfl, p.uses_tree, ?_⟩
  intro v s hrun site hsite
  obtain ⟨g, hexecute, -⟩ := execute_of_analyse hrun
  have hsound := Program.sites_sound hexecute site hsite
  have huses := site.expression.mem_uses_tree
  refine ⟨huses, hsound, ?_, ?_⟩
  · intro hall x hx
    exact hall x ((huses x).mpr (.inr hx))
  · intro hunseen x hx
    rcases (huses x).mp hx with hseen | hconcealed
    · exact ⟨.variables, hsound x hseen⟩
    · exact hunseen x hconcealed

theorem accepted_uses_under_sign : ∃ d v s, parseText .program "var y = 1; print y + -x;" = .ok d ∧
    AnalysisState.start.analyse d.tree = (.ok v, s) ∧ d.tree.uses = ["y", "x"] ∧
      s.scopes.current.table.names = ["y"] ∧
      ∃ p : Program, p.tree = d.tree ∧ ∀ site ∈ p.sites, ∀ x ∈ site.expression.seen,
        (x, .variables) ∈ site.names := by
  obtain ⟨d, hd, hpassed⟩ := exists_derived "var y = 1; print y + -x;"
    (fun d => decide ((AnalysisState.start.analyse d.tree).1.isOk = true ∧ d.tree.uses = ["y", "x"] ∧
      (AnalysisState.start.analyse d.tree).2.scopes.current.table.names = ["y"])) (by decide +kernel)
  obtain ⟨hok, huses, hnames⟩ := of_decide_eq_true hpassed
  obtain ⟨p, hp, -, hsites⟩ := accepted_uses hd
  cases hrun : AnalysisState.start.analyse d.tree with
  | mk outcome s =>
    rw [hrun] at hok hnames
    cases outcome with
    | error e => cases hok
    | ok v => exact ⟨d, v, s, hd, hrun, huses, hnames, p, hp, fun site hsite => (hsites v s hrun site hsite).2.1⟩

end CompiScript
