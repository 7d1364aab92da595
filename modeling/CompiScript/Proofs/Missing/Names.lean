import CompiScript.Proofs.Failures.Broken
import CompiScript.Proofs.Missing.Wanted

namespace CompiScript

open Syntax

namespace Syntax

open Step

section Program

variable {p : Program} {err : AnalysisError} {g : Stage} {x : String}

theorem Program.wantedAt (h : execute p.steps .start = (some err, g)) (hx : err.missing? = some x) :
    WantedAt x g p.sites := by
  refine Declaration.wantedAtAll ?_ p.body ⟨err, h, hx⟩
  intro y c
  constructor
  · nofun
  · rintro ⟨o, ho, hy⟩
    rw [List.mem_singleton.mp ho] at hy
    cases hy

theorem Program.exists_reaches (h : execute p.steps .start = (some err, g)) :
    ∃ s, p.Reaches s g ∧ s.run g = .error err := by
  obtain ⟨before, s, after, hsteps, hbefore, herror⟩ := execute_eq_some.mp h
  exact ⟨s, ⟨before, after, hsteps, hbefore⟩, herror⟩

end Program

theorem outcome_call (s : AnalysisState) (c : Call) :
    s.outcome c.tree = (failure? (c.type s.standing), s.standing) := by
  obtain ⟨s', hrun, hstanding⟩ := c.visit_run s.standing .alone s rfl
  rw [AnalysisState.outcome, AnalysisState.analyse, hrun, ← hstanding]
  cases c.type s'.standing <;> rfl

theorem outcome_call_of_name (s : AnalysisState) (f : Name) (suffixes : List Tree) :
    s.outcome (Call.primary (.name f) suffixes).tree = (some (.undeclared f.text), s.standing) ↔
      s.scopes.find? f.text (some .variables) = none := by
  have htype : Call.type s.standing (.primary (.name f) suffixes) = nameType s.standing f := rfl
  rw [outcome_call, htype, nameType]
  cases hfound : s.scopes.find? f.text (some .variables) with
  | none => simp [AnalysisState.standing, hfound, failure?]
  | some symbol => simp [AnalysisState.standing, hfound, failure?]

/-- Where the analysis of a program stops because a name is missing, it has looked for the name in an expression with no
variable of that name before it. There is a declaration of the name before it exactly if a function has it. A call of a
function by its name is refused in every state in which no variable has the name, so no program with one is accepted. -/
theorem missing_name_has_no_variable {text : String} {d : Derived} (h : parseText .program text = .ok d) :
    ∃ p : Program, p.tree = d.tree ∧
      (∀ err k x, AnalysisState.start.outcome d.tree = (some err, k) → err.missing? = some x →
        k.scopes.find? x (some .variables) = none ∧
        ∃ site ∈ p.sites, x ∈ site.expression.sought ∧
          (∀ y c, (y, c) ∈ site.names ↔ k.scopes.sketch.Has y c) ∧
          (x, .variables) ∉ site.names ∧ (site.Declares x ↔ (x, .functions) ∈ site.names)) ∧
      (∀ site ∈ p.sites, ∀ f ∈ site.expression.seen, (f, .variables) ∉ site.names →
        (AnalysisState.start.outcome d.tree).1 ≠ none) ∧
      ∀ (s : AnalysisState) (f : Name) (suffixes : List Tree),
        s.outcome (Call.primary (.name f) suffixes).tree = (some (.undeclared f.text), s.standing) ↔
          s.scopes.find? f.text (some .variables) = none := by
  obtain ⟨p, hp⟩ := parseText_program h
  rw [← hp]
  refine ⟨p, rfl, ?_, ?_, outcome_call_of_name⟩
  · intro err k x hrun hx
    obtain ⟨g, hexecute, rfl⟩ := execute_of_outcome hrun
    obtain ⟨s, hreaches, herror⟩ := p.exists_reaches hexecute
    obtain ⟨-, hnone⟩ := Step.missing_origin herror hx
    obtain ⟨site, hsite, hsought, hspans⟩ := p.wantedAt hexecute hx
    have hfree : (x, .variables) ∉ site.names := by
      intro hmem
      have hfound := Scopes.find?_of_has (by decide) hreaches.distinct ((hspans x .variables).mp hmem)
      rw [hnone] at hfound
      cases hfound
    refine ⟨hnone, site, hsite, hsought, hspans, hfree, ?_, fun hf => ⟨_, hf⟩⟩
    rintro ⟨c, hc⟩
    obtain ⟨o, ho, hkey⟩ := (hspans x c).mp hc
    rcases hreaches.plain o ho _ hkey with rfl | rfl
    · exact absurd hc hfree
    · exact hc
  · intro site hsite f hf hfree haccepted
    obtain ⟨g, hexecute, -⟩ := execute_of_outcome (Prod.ext haccepted rfl)
    exact hfree (p.sites_sound hexecute site hsite f hf)

theorem declared_function_missing : ∃ d err k, parseText .program "fun f() { } f();" = .ok d ∧
    AnalysisState.start.outcome d.tree = (some err, k) ∧
      err.message = "Variable 'f' is not declared in the current scope." ∧
      (k.scopes.find? "f" (some .functions)).isSome = true ∧ k.scopes.find? "f" (some .variables) = none := by
  obtain ⟨d, hd, hrefused⟩ := exists_derived "fun f() { } f();"
    (fun d => decide ((AnalysisState.start.outcome d.tree).1 = some (.undeclared "f")) &&
      ((AnalysisState.start.outcome d.tree).2.scopes.find? "f" (some .functions)).isSome) (by decide +kernel)
  rw [Bool.and_eq_true, decide_eq_true_eq] at hrefused
  obtain ⟨herror, hfunction⟩ := hrefused
  have hrun : AnalysisState.start.outcome d.tree = (some (.undeclared "f"), (AnalysisState.start.outcome d.tree).2) :=
    Prod.ext herror rfl
  obtain ⟨p, -, hmissing, -⟩ := missing_name_has_no_variable hd
  exact ⟨d, _, _, hd, hrun, rfl, hfunction, (hmissing _ _ "f" hrun rfl).1⟩

end Syntax

end CompiScript
