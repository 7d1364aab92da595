import CompiScript.Proofs.Settling.Initialised

namespace CompiScript

open Syntax

theorem execute_typeAt {steps : List Step} {x : String} (hsteps : ∀ s ∈ steps, s.gives? ≠ some x) {g g' : Stage}
    (h : execute steps g = (none, g')) {n : Nat} {r : Option Ty} (hr : g.scopes.typeAt n x = some r) :
    g'.scopes.typeAt n x = some r := by
  induction steps generalizing g with
  | nil =>
    cases h
    exact hr
  | cons s steps ih =>
    obtain ⟨g₁, hs, hrest⟩ := execute_cons_ok h
    apply ih (fun u hu => hsteps u (.tail s hu)) hrest
    rcases (Step.run_takes hs).typeAt_cases n x with hsame | ⟨hnone, -⟩ | ⟨hgives, -⟩
    · rw [hsame, hr]
    · rw [hr] at hnone
      cases hnone
    · exact absurd hgives (hsteps s (.head steps))

namespace Syntax

theorem Assignment.mem_targets {a : Assignment} {s : Step} (hs : s ∈ a.steps) {x : String} (hx : s.gives? = some x) :
    x ∈ a.targets := by
  induction a with
  | assign object target value ih =>
    simp only [steps, List.cons_append, List.mem_cons, List.mem_append, List.not_mem_nil, or_false] at hs
    rcases hs with rfl | hvalue | rfl
    · cases hx
    · exact .tail _ (ih hvalue)
    · cases hx
      exact .head _
  | operation e =>
    rw [List.mem_singleton.mp hs] at hx
    cases hx

theorem Expression.mem_targets {e : Expression} {s : Step} (hs : s ∈ e.steps) {x : String} (hx : s.gives? = some x) :
    x ∈ e.targets := by
  cases e with
  | assignment a => exact a.mem_targets hs hx
  | function parts =>
    rw [List.mem_singleton.mp hs] at hx
    cases hx

theorem Expression.type_of_target {e : Expression} {x : String} (hx : x ∈ e.targets) {g g' : Stage}
    (h : execute e.steps g = (none, g')) : g'.type = none := by
  cases e with
  | function parts => cases hx
  | assignment a =>
    cases a with
    | operation e => cases hx
    | assign object target value =>
      obtain ⟨g₁, -, hlast⟩ := execute_append_ok h
      obtain ⟨g₂, hassign, hend⟩ := execute_cons_ok hlast
      cases hend
      cases Step.run_takes hassign with
      | assignFirst hold => rfl
      | assignAgain hold hshow => rfl

namespace Program

def Passes (p : Program) (g g' : Stage) : Prop :=
  ∃ before steps after, p.steps = before ++ steps ++ after ∧ execute before .start = (none, g) ∧
    execute steps g = (none, g')

def Gives (p : Program) (n : Nat) (x : String) (t : Option Ty) : Prop :=
  ∃ s g, p.Reaches s g ∧ s.gives? = some x ∧ g.scopes.home? x .variables = some n ∧ g.type = t

end Program

namespace Program.Reaches

variable {p : Program} {s : Step} {g g' : Stage}

theorem initialise_value {x : String} (h : p.Reaches (.initialise x) g) :
    ∃ v ∈ p.varDecls, ∃ e g₀ g₁, v.name.text = x ∧ v.value = some e ∧
      (Step.declare .variable x).run g₀ = .ok g₁ ∧ execute e.steps g₁ = (none, g) := by
  obtain ⟨before, after, hsteps, hrun⟩ := h
  obtain ⟨v, hv, e, front, hx, he, rfl⟩ := Declaration.initialisedAll none p.body before x after hsteps
  obtain ⟨g₀, -, hrest⟩ := execute_append_ok hrun
  obtain ⟨g₁, hdeclare, hvalue⟩ := execute_cons_ok hrest
  exact ⟨v, hv, e, g₀, g₁, hx, he, hdeclare, hvalue⟩

theorem initialise_type {x : String} (h : p.Reaches (.initialise x) g) {n : Nat}
    (hhome : g.scopes.home? x .variables = some n) {t : Ty} (ht : g.scopes.typeAt n x = some (some t)) :
    g.type = none ∧ ∃ v ∈ p.varDecls, v.name.text = x ∧ v.AssignsItself := by
  obtain ⟨v, hv, e, g₀, g₁, rfl, he, hdeclare, hvalue⟩ := h.initialise_value
  by_cases hself : v.name.text ∈ e.targets
  · exact ⟨e.type_of_target hself hvalue, v, hv, rfl, e, he, hself⟩
  obtain ⟨hnew, rfl⟩ := Step.run_declare_ok hdeclare
  have hsketch : g.scopes.sketch = (g₀.scopes.declared .variable v.name.text).sketch := by
    rw [execute_sketch hvalue, e.sketchAll_steps]
  have hhere : n = g₀.scopes.sketch.here := by
    have hdeclared := g₀.scopes.home?_declared .variable v.name.text
    rw [← Scopes.home?_congr hsketch _ (by decide)] at hdeclared
    exact Option.some.inj (hhome.symm.trans hdeclared)
  have hfresh : (g₀.scopes.declared .variable v.name.text).typeAt n v.name.text = some none := by
    rw [Scopes.typeAt_declared hnew rfl, if_pos ⟨hhere.symm, rfl⟩]
  have hkept := execute_typeAt (fun s hs hx => hself (e.mem_targets hs hx)) hvalue hfresh
  rw [ht] at hkept
  cases hkept

theorem typeAt_lost {x : String} (h : p.Reaches (.initialise x) g) (hrun : (Step.initialise x).run g = .ok g')
    {n : Nat} (hhome : g.scopes.home? x .variables = some n) {t : Ty} (ht : g.scopes.typeAt n x = some (some t)) :
    g'.scopes.typeAt n x = some none ∧ ∃ v ∈ p.varDecls, v.name.text = x ∧ v.AssignsItself := by
  obtain ⟨htype, hself⟩ := h.initialise_type hhome ht
  cases Step.run_takes hrun
  rw [Scopes.typeAt_setType, if_pos ⟨hhome, rfl⟩, htype]
  exact ⟨rfl, hself⟩

end Program.Reaches

end Syntax

theorem Step.Takes.typeAt_kept {s : Step} {g g' : Stage} (h : s.Takes g g') {n : Nat} {x : String} {t : Ty}
    (hs : ¬(s = .initialise x ∧ g.scopes.home? x .variables = some n)) (ht : g.scopes.typeAt n x = some (some t)) :
    g'.scopes.typeAt n x = some (some t) := by
  rcases h.typeAt_cases n x with hsame | ⟨hnone, -⟩ | ⟨hgives, hhome, -, hassign⟩
  · exact hsame.trans ht
  · rw [ht] at hnone
    cases hnone
  · cases s with
    | assign y =>
      cases hgives
      have hempty := hassign rfl
      rw [ht] at hempty
      cases hempty
    | initialise y =>
      cases hgives
      exact absurd ⟨rfl, hhome⟩ hs
    | _ => cases hgives

namespace Syntax

theorem Program.Passes.typeAt_kept {p : Program} {g g' : Stage} (h : p.Passes g g') {x : String}
    (hx : ∀ v ∈ p.varDecls, v.name.text = x → ¬v.AssignsItself) {n : Nat} {t : Ty}
    (ht : g.scopes.typeAt n x = some (some t)) : g'.scopes.typeAt n x = some (some t) := by
  obtain ⟨before, steps, after, hsteps, hbefore, hrun⟩ := h
  -- Along the steps, which move one by one to those that are behind.
  induction steps generalizing before g with
  | nil =>
    cases hrun
    exact ht
  | cons s steps ih =>
    obtain ⟨g₁, hs, hrest⟩ := execute_cons_ok hrun
    have hreach : p.Reaches s g := ⟨before, steps ++ after, by simpa using hsteps, hbefore⟩
    have hkept : g₁.scopes.typeAt n x = some (some t) := by
      apply (Step.run_takes hs).typeAt_kept _ ht
      rintro ⟨rfl, hhome⟩
      obtain ⟨-, v, hv, hname, hself⟩ := hreach.typeAt_lost hs hhome ht
      exact hx v hv hname hself
    have hfront := execute_trans hbefore (execute_single hs)
    exact ih hkept (before ++ [s]) (by simpa using hsteps) hfront hrest

end Syntax

theorem Step.Takes.typeAt_given {s : Step} {g g' : Stage} (h : s.Takes g g') (hg : g.Proper) {x : String}
    (hs : s.gives? = some x) {n : Nat} (hhome : g.scopes.home? x .variables = some n) {t : Ty} (ht : g.type = some t) :
    g'.scopes.typeAt n x = some (some t) := by
  cases h with
  | assignFirst hold =>
    cases hs
    rw [Scopes.typeAt_setType, if_pos ⟨hhome, rfl⟩, ht]
  | @assignAgain y u hold hshow =>
    cases hs
    have hu := Scopes.typeAt_home hhome
    rw [hold] at hu
    -- The types have the same text, and proper types with the same text are equal.
    have hsame : some u = g.type := Ty.eq_of_show? (hg.types n x _ hu) hg.type hshow
    rw [← ht, ← hsame]
    exact hu
  | initialise y =>
    cases hs
    rw [Scopes.typeAt_setType, if_pos ⟨hhome, rfl⟩, ht]
  | _ => cases hs

theorem Syntax.Program.Gives.typeAt_end {p : Program} {n : Nat} {x : String} {t : Ty} (h : p.Gives n x (some t))
    (hx : ∀ v ∈ p.varDecls, v.name.text = x → ¬v.AssignsItself) {g' : Stage}
    (hrun : execute p.steps .start = (none, g')) : g'.scopes.typeAt n x = some (some t) := by
  obtain ⟨s, g, ⟨before, after, hsteps, hbefore⟩, hs, hhome, ht⟩ := h
  rw [hsteps] at hrun
  obtain ⟨g₁, htake, hafter⟩ := execute_cons_ok (execute_rest hrun hbefore)
  have hgiven := (Step.run_takes htake).typeAt_given (execute_proper hbefore) hs hhome ht
  have hpasses : p.Passes g₁ g' :=
    ⟨before ++ [s], after, [], by simpa using hsteps, execute_trans hbefore (execute_single htake), hafter⟩
  exact hpasses.typeAt_kept hx hgiven

theorem Syntax.Program.passes_end {p : Program} {before after : List Step} {g : Stage}
    (hsteps : p.steps = before ++ after) (hrun : execute before .start = (none, g)) :
    p.Passes g (execute p.steps .start).2 := by
  have hend : execute p.steps .start = execute after g := by
    rw [hsteps, execute_append, hrun]
  rw [hend]
  match hafter : execute after g with
  | (none, g') => exact ⟨before, after, [], by simpa using hsteps, hrun, hafter⟩
  | (some e, g') =>
    obtain ⟨front, s, back, rfl, hfront, -⟩ := execute_eq_some.mp hafter
    exact ⟨before, front, s :: back, by simpa using hsteps, hrun, hfront⟩

/-- While a program is analysed, a variable loses its type only when its declaration ends, and only where
the value of the declaration assigns to the variable itself. A variable that is never declared so keeps
its type to the end, also where the analysis fails, and in a program without an error all values with a
type that it is given have this one. -/
theorem types_settle {text : String} {d : Derived} (h : parseText .program text = .ok d) :
    (∃ p : Program, p.tree = d.tree) ∧ ∀ p : Program, p.tree = d.tree →
      (∀ s g g' n x t, p.Reaches s g → s.run g = .ok g' → g.scopes.typeAt n x = some (some t) →
        (¬(s = .initialise x ∧ g.scopes.home? x .variables = some n) → g'.scopes.typeAt n x = some (some t)) ∧
        (s = .initialise x → g.scopes.home? x .variables = some n →
          g'.scopes.typeAt n x = some none ∧ ∃ v ∈ p.varDecls, v.name.text = x ∧ v.AssignsItself)) ∧
      ∀ x, (∀ v ∈ p.varDecls, v.name.text = x → ¬v.AssignsItself) →
        (∀ g g' n t, p.Passes g g' → g.scopes.typeAt n x = some (some t) →
          g'.scopes.typeAt n x = some (some t) ∧
            (AnalysisState.start.analyse d.tree).2.scopes.typeAt n x = some (some t)) ∧
        ∀ v s, AnalysisState.start.analyse d.tree = (.ok v, s) → ∀ n t, p.Gives n x (some t) →
          s.scopes.typeAt n x = some (some t) ∧ ∀ u, p.Gives n x (some u) → u = t := by
  refine ⟨parseText_program h, ?_⟩
  intro p hp
  rw [← hp]
  constructor
  · intro s g g' n x t hreach hrun ht
    refine ⟨fun hs => (Step.run_takes hrun).typeAt_kept hs ht, ?_⟩
    rintro rfl hhome
    exact hreach.typeAt_lost hrun hhome ht
  intro x hx
  constructor
  · intro g g' n t hpasses ht
    have hend : (AnalysisState.start.analyse p.tree).2.scopes = (execute p.steps .start).2.scopes :=
      congrArg Standing.scopes (analyse_standing .start p)
    obtain ⟨before, steps, after, hsteps, hbefore, -⟩ := id hpasses
    rw [hend]
    refine ⟨hpasses.typeAt_kept hx ht, ?_⟩
    exact (p.passes_end (hsteps.trans (List.append_assoc before steps after)) hbefore).typeAt_kept hx ht
  · intro v s haccepted n t hgives
    obtain ⟨g, hrun, hstanding⟩ := execute_of_analyse haccepted
    have hscopes : s.scopes = g.scopes := congrArg Standing.scopes hstanding
    rw [hscopes]
    refine ⟨hgives.typeAt_end hx hrun, ?_⟩
    intro u hother
    have hboth := (hother.typeAt_end hx hrun).symm.trans (hgives.typeAt_end hx hrun)
    exact Option.some.inj (Option.some.inj hboth)

def twiceAssigned : Program :=
  ⟨[.variable ⟨.named "x", some (.ofPrimary (.number "1"))⟩,
    .statement (.block [.statement (.expression (.assignment (.assign none (.named "x")
      (.operation (.ofUnary (.call (.primary (.number "2") [])))))))]),
    .variable ⟨.named "y", some (.assignment (.assign none (.named "y")
      (.operation (.ofUnary (.call (.primary (.number "1") []))))))⟩]⟩

theorem types_settle_or_not : ∃ d v s, parseText .program "var x = 1; { x = 2; } var y = y = 1;" = .ok d ∧
    twiceAssigned.tree = d.tree ∧ AnalysisState.start.analyse d.tree = (.ok v, s) ∧
      twiceAssigned.Gives 0 "x" (some Ty.num) ∧ s.scopes.typeAt 0 "x" = some (some Ty.num) ∧
      (∃ v ∈ twiceAssigned.varDecls, v.name.text = "y" ∧ v.AssignsItself) ∧ s.scopes.typeAt 0 "y" = some none := by
  obtain ⟨d, hd, htree⟩ := exists_derived_tree "var x = 1; { x = 2; } var y = y = 1;" twiceAssigned (by decide +kernel)
  have haccepted : (match AnalysisState.start.analyse twiceAssigned.tree with
      | (.ok _, s) => decide (s.scopes.typeAt 0 "y" = some none)
      | _ => false) = true := by
    decide +kernel
  have hgives : twiceAssigned.Gives 0 "x" (some Ty.num) := by
    refine ⟨.initialise "x", (execute (twiceAssigned.steps.take 2) .start).2, ?_, rfl, ?_, ?_⟩
    · exact ⟨twiceAssigned.steps.take 2, twiceAssigned.steps.drop 3, rfl, Prod.ext (by decide +kernel) rfl⟩
    · decide +kernel
    · decide +kernel
  rw [htree] at haccepted
  split at haccepted
  · next v s hrun =>
    have hx := ((types_settle hd).2 twiceAssigned htree).2 "x" (by decide +kernel)
    refine ⟨d, v, s, hd, htree, hrun, hgives, (hx.2 v s hrun 0 Ty.num hgives).1, ?_, of_decide_eq_true haccepted⟩
    decide +kernel
  · cases haccepted

end CompiScript
