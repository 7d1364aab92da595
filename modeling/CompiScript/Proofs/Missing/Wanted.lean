import CompiScript.Proofs.Failures.Fits
import CompiScript.Proofs.Missing.Origin
import CompiScript.Proofs.Uses.Sound

namespace CompiScript

open Syntax

def Wants (x : String) (steps : List Step) (g g' : Stage) : Prop :=
  ∃ err, execute steps g = (some err, g') ∧ err.missing? = some x

namespace Wants

variable {x : String} {before after : List Step} {g g' : Stage}

theorem append (h : Wants x (before ++ after) g g') :
    Wants x before g g' ∨ ∃ g₁, execute before g = (none, g₁) ∧ Wants x after g₁ g' := by
  obtain ⟨err, hrun, hx⟩ := h
  rw [execute_append] at hrun
  split at hrun
  · next g₁ hbefore => exact .inr ⟨g₁, hbefore, err, hrun, hx⟩
  · next err' g₁ hbefore =>
    cases hrun
    exact .inl ⟨err, hbefore, hx⟩

theorem single {s : Step} (h : Wants x [s] g g') : x ∈ s.sought ∧ g' = g := by
  obtain ⟨err, hrun, hx⟩ := h
  rw [execute] at hrun
  split at hrun
  · cases hrun
  · next herror =>
    cases hrun
    exact ⟨(Step.missing_origin herror hx).1, rfl⟩

theorem cons {s : Step} (h : Wants x (s :: after) g g') :
    x ∈ s.sought ∧ g' = g ∨ ∃ g₁, s.run g = .ok g₁ ∧ Wants x after g₁ g' := by
  rcases append (show Wants x ([s] ++ after) g g' from h) with hfirst | ⟨g₁, hfirst, hrest⟩
  · exact .inl hfirst.single
  · obtain ⟨g₂, hs, hnil⟩ := execute_cons_ok hfirst
    cases hnil
    exact .inr ⟨g₁, hs, hrest⟩

theorem cons_of_sought {s : Step} (hs : s.sought = []) (h : Wants x (s :: after) g g') :
    ∃ g₁, s.run g = .ok g₁ ∧ Wants x after g₁ g' := by
  rcases h.cons with ⟨hx, -⟩ | hrest
  · rw [hs] at hx
    cases hx
  · exact hrest

theorem not_of_sought {steps : List Step} (hs : ∀ s ∈ steps, s.sought = []) : ¬Wants x steps g g' := by
  intro h
  induction steps generalizing g with
  | nil =>
    obtain ⟨err, hrun, -⟩ := h
    cases hrun
  | cons s steps ih =>
    obtain ⟨g₁, -, hrest⟩ := h.cons_of_sought (hs s (.head _))
    exact ih (fun t ht => hs t (.tail _ ht)) hrest

end Wants

def Sketch.Spans (k : Sketch) (names : List (String × Category)) : Prop :=
  ∀ x c, (x, c) ∈ names ↔ k.Has x c

namespace Sketch.Spans

variable {k : Sketch} {names : List (String × Category)}

theorem enter (h : k.Spans names) (scope : String) : (k.enter scope).Spans names := by
  intro x c
  rw [h x c]
  constructor
  · exact has_enter scope
  · rintro ⟨o, ho, hx⟩
    rcases List.mem_cons.mp ho with rfl | hmem
    · cases hx
    · exact ⟨o, hmem, hx⟩

theorem extend (h : k.Spans names) (ks : List (String × Category)) (os : List Outline) :
    (k.extend ks os).Spans (ks ++ names) := by
  intro x c
  have hkeys : (k.current.extend ks os).keys = k.current.keys ++ ks := by
    cases k.current
    rfl
  rw [List.mem_append, h x c]
  simp only [Has, Sketch.extend, List.mem_cons, exists_eq_or_imp, hkeys, List.mem_append]
  exact or_left_comm.trans or_assoc.symm

end Sketch.Spans

namespace Syntax

open Step

theorem Assignment.wants {a : Assignment} {x : String} {g g' : Stage} (h : Wants x a.steps g g') :
    x ∈ a.sought ∧ g'.scopes.sketch = g.scopes.sketch := by
  induction a generalizing g with
  | assign object target value ih =>
    rcases h.cons with ⟨hx, rfl⟩ | ⟨g₁, haim, hrest⟩
    · exact ⟨List.mem_cons.mpr (.inl (List.mem_singleton.mp hx)), rfl⟩
    · rcases hrest.append with hvalue | ⟨g₂, -, hassign⟩
      · obtain ⟨hx, hsame⟩ := ih hvalue
        exact ⟨.tail _ hx, hsame.trans (run_sketch haim)⟩
      · cases hassign.single.1
  | operation e =>
    obtain ⟨hx, rfl⟩ := h.single
    exact ⟨hx, rfl⟩

theorem Expression.wants {e : Expression} {x : String} {g g' : Stage} (h : Wants x e.steps g g') :
    x ∈ e.sought ∧ g'.scopes.sketch = g.scopes.sketch := by
  cases e with
  | assignment a => exact a.wants h
  | function parts => cases h.single.1

def WantedAt (x : String) (g : Stage) (sites : List Site) : Prop :=
  ∃ site ∈ sites, x ∈ site.expression.sought ∧ g.scopes.sketch.Spans site.names

theorem WantedAt.mono {x : String} {g : Stage} {sites more : List Site} (h : WantedAt x g sites)
    (hsub : ∀ site ∈ sites, site ∈ more) : WantedAt x g more := by
  obtain ⟨site, hsite, hx, hspans⟩ := h
  exact ⟨site, hsub site hsite, hx, hspans⟩

section Sites

variable {x : String} {names : List (String × Category)} {g g' : Stage}

theorem Expression.wantedAt {e : Expression} (h : Wants x e.steps g g') (hk : g.scopes.sketch.Spans names) :
    WantedAt x g' [⟨names, e⟩] := by
  obtain ⟨hx, hsame⟩ := e.wants h
  exact ⟨_, .head _, hx, hsame ▸ hk⟩

theorem VarDecl.wantedAt {v : VarDecl} (h : Wants x v.steps g g') (hk : g.scopes.sketch.Spans names) :
    WantedAt x g' (v.sites names) := by
  obtain ⟨name, value⟩ := v
  cases value with
  | none => cases h.single.1
  | some e =>
    obtain ⟨g₁, hdeclare, hrest⟩ := h.cons_of_sought rfl
    rcases hrest.append with hvalue | ⟨g₂, -, hinitialise⟩
    · refine e.wantedAt hvalue ?_
      rw [run_sketch hdeclare]
      exact hk.extend [(name.text, .variables)] []
    · cases hinitialise.single.1

theorem wantedAt_condition {e : Expression} {place : String} {more : List Step}
    (h : Wants x (e.steps ++ require place :: more) g g') (hk : g.scopes.sketch.Spans names) :
    WantedAt x g' [⟨names, e⟩] ∨ ∃ g₁, Wants x more g₁ g' ∧ g₁.scopes.sketch = g.scopes.sketch := by
  rcases h.append with he | ⟨g₁, he, hrest⟩
  · exact .inl (e.wantedAt he hk)
  · obtain ⟨g₂, hrequire, hmore⟩ := hrest.cons_of_sought rfl
    exact .inr ⟨g₂, hmore, (run_sketch hrequire).trans (Expression.sketch_of_execute he)⟩

theorem headSteps_wantedAt {es : List Expression} (hes : es.length ≤ 2) (h : Wants x (headSteps es) g g')
    (hk : g.scopes.sketch.Spans names) : WantedAt x g' (es.map fun e => ⟨names, e⟩) := by
  match es with
  | [] => exact absurd h (Wants.not_of_sought nofun)
  | [c] =>
    rcases wantedAt_condition h hk with hc | ⟨g₁, hmore, -⟩
    · exact hc
    · exact absurd hmore (Wants.not_of_sought nofun)
  | [c, u] =>
    rcases wantedAt_condition h hk with hc | ⟨g₁, hmore, hsame⟩
    · exact hc.mono (by simp)
    · exact (u.wantedAt hmore (hsame ▸ hk)).mono (by simp)
  | _ :: _ :: _ :: _ => simp at hes

theorem ForHead.wantedAt {head : ForHead} (h : Wants x head.steps g g') (hk : g.scopes.sketch.Spans names) :
    WantedAt x g' (head.sites names) := by
  obtain ⟨init, condition, update⟩ := head
  rcases Wants.append h with hinit | ⟨g₁, hinit, hhead⟩
  · have hfirst : WantedAt x g' (init.sites names) := by
      cases init with
      | «variable» v => exact v.wantedAt hinit hk
      | expression e => exact e.wantedAt hinit hk
      | nothing => exact absurd hinit (Wants.not_of_sought nofun)
    exact hfirst.mono fun site => List.mem_append_left _
  · have hk₁ : g₁.scopes.sketch.Spans (init.keys ++ names) := by
      have hsketch := ForHead.sketchAll_steps ⟨init, none, none⟩ g.scopes.sketch
      simp only [ForHead.steps, Option.toList, List.append_nil, headSteps] at hsketch
      rw [execute_sketch hinit, hsketch]
      exact hk.extend init.keys []
    refine (headSteps_wantedAt ?_ hhead hk₁).mono fun site => List.mem_append_right _
    cases condition <;> cases update <;> simp

theorem Params.sought_steps (function : String) (params : Option Params) :
    ∀ s ∈ Params.steps function params, s.sought = [] := by
  intro s hs
  cases params with
  | none => cases hs
  | some ps =>
    rcases List.mem_append.mp hs with hin | hin
    · obtain ⟨y, -, rfl⟩ := List.mem_map.mp hin
      rfl
    · rw [List.mem_singleton.mp hin]
      rfl

end Sites

-- The run stops in one part of the statement. All steps before that part have been taken, so the syntax says which names
-- there are when the part is reached.

mutual

theorem Statement.wantedAt {x : String} {scope owner : Option String} {names : List (String × Category)} {g g' : Stage}
    (hk : g.scopes.sketch.Spans names) : ∀ s : Statement, Wants x (s.steps scope owner) g g' →
    WantedAt x g' (s.sites names)
  | .expression e, h => e.wantedAt h hk
  | .forLoop head body, h => by
    rw [Statement.steps, List.append_assoc] at h
    obtain ⟨g₁, henter, hrest⟩ := h.cons_of_sought rfl
    have hk₁ : g₁.scopes.sketch.Spans names := by
      rw [run_sketch henter]
      exact hk.enter _
    rcases hrest.append with hhead | ⟨g₂, hhead, hrest⟩
    · exact (head.wantedAt hhead hk₁).mono fun site => List.mem_append_left _
    · obtain ⟨g₃, hinside, hrest⟩ := hrest.cons_of_sought rfl
      have hk₃ : g₃.scopes.sketch.Spans (head.init.keys ++ names) := by
        rw [run_sketch hinside, execute_sketch hhead, head.sketchAll_steps]
        exact (hk₁.extend _ _).enter _
      rcases hrest.append with hbody | ⟨g₄, -, hexit⟩
      · exact (Statement.wantedAt hk₃ body hbody).mono fun site => List.mem_append_right _
      · exact absurd hexit (Wants.not_of_sought (by simp [sought]))
  | .ifThen condition yes, h => by
    rcases wantedAt_condition h hk with hcondition | ⟨g₁, hyes, hsame⟩
    · exact hcondition.mono (by simp [Statement.sites])
    · exact (Statement.wantedAt (hsame ▸ hk) yes hyes).mono fun site => List.mem_cons_of_mem _
  | .ifElse condition yes no, h => by
    rw [Statement.steps, List.append_assoc] at h
    rcases wantedAt_condition h hk with hcondition | ⟨g₁, hrest, hsame⟩
    · exact hcondition.mono (by simp [Statement.sites])
    · rcases hrest.append with hyes | ⟨g₂, hyes, hno⟩
      · exact (Statement.wantedAt (hsame ▸ hk) yes hyes).mono
          fun site hsite => List.mem_cons_of_mem _ (List.mem_append_left _ hsite)
      · have hk₂ : g₂.scopes.sketch.Spans names := by
          rw [execute_sketch hyes, yes.sketchAll_steps, hsame]
          exact hk.extend [] _
        exact (Statement.wantedAt hk₂ no hno).mono
          fun site hsite => List.mem_cons_of_mem _ (List.mem_append_right _ hsite)
  | .print e, h => by
    obtain ⟨g₁, hbegin, hrest⟩ := h.cons_of_sought rfl
    rcases hrest.append with he | ⟨g₂, -, hend⟩
    · exact e.wantedAt he ((run_sketch hbegin) ▸ hk)
    · cases hend.single.1
  | .giveBack none, h => by cases h.single.1
  | .giveBack (some e), h => by
    rcases Wants.append h with he | ⟨g₁, -, hreturn⟩
    · exact e.wantedAt he hk
    · cases hreturn.single.1
  | .whileLoop condition body, h => by
    rcases wantedAt_condition h hk with hcondition | ⟨g₁, hbody, hsame⟩
    · exact hcondition.mono (by simp [Statement.sites])
    · exact (Statement.wantedAt (hsame ▸ hk) body hbody).mono fun site => List.mem_cons_of_mem _
  | .block body, h => by
    obtain ⟨g₁, henter, hrest⟩ := h.cons_of_sought rfl
    rcases hrest.append with hbody | ⟨g₂, -, hexit⟩
    · refine Declaration.wantedAtAll ?_ body hbody
      rw [run_sketch henter]
      exact hk.enter _
    · cases hexit.single.1

theorem Declaration.wantedAt {x : String} {owner : Option String} {names : List (String × Category)} {g g' : Stage}
    (hk : g.scopes.sketch.Spans names) : ∀ d : Declaration, Wants x (d.steps owner) g g' → WantedAt x g' (d.sites names)
  | .classType _, h => absurd h (Wants.not_of_sought nofun)
  | .function name params body, h => by
    rw [Declaration.steps, List.append_assoc] at h
    obtain ⟨g₁, hdeclare, hrest⟩ := h.cons_of_sought rfl
    obtain ⟨g₂, henter, hrest⟩ := hrest.cons_of_sought rfl
    rcases hrest.append with hparams | ⟨g₃, hparams, hrest⟩
    · exact absurd hparams (Wants.not_of_sought (Params.sought_steps name.text params))
    · obtain ⟨g₄, hinside, hrest⟩ := hrest.cons_of_sought rfl
      rcases hrest.append with hbody | ⟨g₅, -, hexit⟩
      · refine Declaration.wantedAtAll ?_ body hbody
        rw [run_sketch hinside, execute_sketch hparams, Params.sketchAll_steps, run_sketch henter,
          run_sketch hdeclare]
        exact (((hk.extend [(name.text, .functions)] []).enter _).extend _ _).enter _
      · exact absurd hexit (Wants.not_of_sought (by simp [sought]))
  | .variable v, h => v.wantedAt h hk
  | .statement s, h => Statement.wantedAt hk s h

theorem Declaration.wantedAtAll {x : String} {owner : Option String} {names : List (String × Category)} {g g' : Stage}
    (hk : g.scopes.sketch.Spans names) : ∀ ds : List Declaration, Wants x (Declaration.stepsAll owner ds) g g' →
    WantedAt x g' (Declaration.sitesAll names ds)
  | [], h => absurd h (Wants.not_of_sought nofun)
  | d :: ds, h => by
    rcases Wants.append h with hd | ⟨g₁, hd, hds⟩
    · exact (Declaration.wantedAt hk d hd).mono fun site => List.mem_append_left _
    · have hk₁ : g₁.scopes.sketch.Spans (d.keys ++ names) := by
        rw [execute_sketch hd, d.sketchAll_steps]
        exact hk.extend _ _
      exact (Declaration.wantedAtAll hk₁ ds hds).mono fun site => List.mem_append_right _

end

end Syntax

end CompiScript
