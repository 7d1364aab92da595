import CompiScript.Proofs.Dependence.Sheltered
import CompiScript.Proofs.Headers
import CompiScript.Proofs.Missing.Wanted
import CompiScript.Proofs.Replacement

namespace CompiScript

open Syntax Step

def Frame.holds (f : Frame) (x : String) (c : Category) : Bool :=
  (f.table.find? x (some c)).isSome

namespace Scopes

def Holds (s : Scopes) (x : String) (c : Category) : Prop :=
  ∃ f ∈ s.chain, f.holds x c = true

def Conceals (s : Scopes) (x : String) (c : Category) : Prop :=
  s.current.holds x c = false ∧ ∃ f ∈ s.outer, f.holds x c = true

variable {s : Scopes} {x : String} {c : Category}

theorem find?_isSome_iff : (s.find? x (some c)).isSome = true ↔ s.Holds x c := by
  have hnone : s.find? x (some c) = none ↔ ¬s.Holds x c := by
    apply findIn_eq_none.trans
    simp only [Holds, Frame.holds, not_exists, not_and, Bool.not_eq_true, Option.isSome_eq_false_iff,
      Option.isNone_iff_eq_none]
  rw [← Option.ne_none_iff_isSome, ne_eq, hnone, Classical.not_not]

theorem holds_iff : s.Holds x c ↔ s.current.holds x c = true ∨ s.Conceals x c := by
  rw [Holds, chain, Conceals]
  cases hcurrent : s.current.holds x c <;> simp [hcurrent]

end Scopes

mutual

def Outline.entries : Outline → Nat
  | .mk _ _ keys children => keys.length + Outline.entriesAll children

def Outline.entriesAll : List Outline → Nat
  | [] => 0
  | o :: os => o.entries + Outline.entriesAll os

end

theorem Outline.entries_extend (o : Outline) (ks : List (String × Category)) (os : List Outline) :
    (o.extend ks os).entries = o.entries + ks.length + Outline.entriesAll os := by
  have happend : ∀ ps : List Outline, entriesAll (ps ++ os) = entriesAll ps + entriesAll os := by
    intro ps
    induction ps with
    | nil => exact (Nat.zero_add _).symm
    | cons p ps ih => rw [List.cons_append, entriesAll, entriesAll, ih, Nat.add_assoc]
  cases o
  rw [extend, entries, entries, happend, List.length_append]
  omega

def Sketch.entries (k : Sketch) : Nat :=
  Outline.entriesAll (k.current :: k.outer)

theorem Sketch.entries_extend (k : Sketch) (ks : List (String × Category)) :
    (k.extend ks []).entries = k.entries + ks.length := by
  simp only [entries, extend, Outline.entriesAll, Outline.entries_extend]
  omega

theorem Step.run_entries_le {s : Step} {g g' : Stage} (h : s.run g = .ok g') :
    g.scopes.sketch.entries ≤ g'.scopes.sketch.entries := by
  rw [s.run_sketch h]
  cases s with
  | enter scope =>
    apply Nat.le_of_eq
    exact (Nat.zero_add _).symm
  | exit =>
    apply Nat.le_of_eq
    rw [Step.sketch, Sketch.exit]
    split
    · rfl
    · next o os houter =>
      rw [Sketch.entries, Sketch.entries, houter]
      simp only [Outline.entriesAll, Outline.entries_extend, List.length_nil]
      omega
  | declare what name =>
    rw [Step.sketch, Sketch.entries_extend]
    omega
  | _ => exact Nat.le_refl _

theorem execute_entries_le (steps : List Step) (g : Stage) :
    g.scopes.sketch.entries ≤ (execute steps g).2.scopes.sketch.entries := by
  apply execute_invariant (P := fun h => g.scopes.sketch.entries ≤ h.scopes.sketch.entries)
  · intro s g₁ g₂ hs hg
    exact Nat.le_trans hg (s.run_entries_le hs)
  · exact Nat.le_refl _

theorem Step.toStanding_ne_of_declare {what : Declared} {x : String} {g g' : Stage}
    (h : (declare what x).run g = .ok g') (steps : List Step) : (execute steps g').2.toStanding ≠ g.toStanding := by
  intro hsame
  have hlater := execute_entries_le steps g'
  have hscopes : (execute steps g').2.scopes = g.scopes := congrArg Standing.scopes hsame
  rw [hscopes, run_sketch h, Step.sketch, Sketch.entries_extend, List.length_singleton] at hlater
  omega

theorem Step.run_eq_alreadyDeclared {s : Step} {g : Stage} {what : Declared} {x : String} :
    s.run g = .error (.alreadyDeclared what x) ↔ s = declare what x ∧ g.scopes.Holds x what.category := by
  constructor
  · intro h
    rcases s.error_origin h with ⟨what', x', rfl, hsame | hother⟩ | ⟨y, -, hmissing, -⟩ | hmismatch | ⟨asked, habsent⟩
    · cases hsame
      refine ⟨rfl, ?_⟩
      rw [run, declareIn_eq] at h
      split at h
      · next hfound => exact Scopes.find?_isSome_iff.mp hfound
      · split at h <;> cases h
    · cases hother
    · cases hmissing
    · cases hmismatch
    · cases habsent
  · rintro ⟨rfl, hheld⟩
    rw [run, declareIn_eq, if_pos (Scopes.find?_isSome_iff.mpr hheld)]

namespace Syntax

def functionTree (name : Name) (params : Option Params) (body : List Declaration) : Tree :=
  .node .function (functionTrees name params body)

/-- The visit of the tree declares the name, with these steps before and behind the declaration. -/
inductive Declares : Tree → List Step → Declared → String → List Step → Prop
  | variable {v : VarDecl} {after : List Step} (h : v.steps = declare .variable v.name.text :: after) :
      Declares v.tree [] .variable v.name.text after
  | parameter {ps : Params} {before : List Name} {x : Name} {after : List Name} (h : ps.names = before ++ x :: after) :
      Declares ps.tree (before.map fun y => declare .parameter y.text) .parameter x.text
        (after.map fun y => declare .parameter y.text)
  | function {name : Name} {params : Option Params} {body : List Declaration} {after : List Step}
      (h : (Declaration.function name params body).steps none = declare .function name.text :: after) :
      Declares (functionTree name params body) [] .function name.text after

theorem Declares.outcome_eq {t : Tree} {before after : List Step} {what : Declared} {x : String}
    (h : Declares t before what x after) (s : AnalysisState) :
    s.outcome t = s.after (before ++ declare what x :: after) := by
  cases h with
  | «variable» hsteps =>
    rw [outcome_of_follows (VarDecl.follows _ _), hsteps]
    rfl
  | parameter hnames =>
    rw [outcome_of_follows (Params.follows _ _), hnames, List.map_append]
    rfl
  | function hsteps =>
    rw [functionTree, outcome_of_follows (function_follows (fun d _ => d.followed) _ _), hsteps]
    rfl

theorem Expression.declare_not_mem (e : Expression) (what : Declared) (x : String) : declare what x ∉ e.steps := by
  cases e with
  | function parts => simp [steps]
  | assignment a =>
    induction a with
    | assign object target value ih => simpa [steps, Assignment.steps] using ih
    | operation o => simp [steps, Assignment.steps]

theorem VarDecl.exists_steps_eq (v : VarDecl) :
    ∃ after, v.steps = declare .variable v.name.text :: after ∧ ∀ what x, declare what x ∉ after := by
  obtain ⟨name, value⟩ := v
  cases value with
  | none => exact ⟨[], rfl, nofun⟩
  | some e =>
    refine ⟨e.steps ++ [initialise name.text], rfl, fun what x => ?_⟩
    simp [e.declare_not_mem what x]

variable {s : AnalysisState} {t : Tree} {what : Declared} {x : String}

theorem exists_declares_of_varDecl (h : Spells (.rule .varDecl) [t]) :
    ∃ y after, Declares t [] .variable y after := by
  obtain ⟨v, hv⟩ := spells_varDecl h
  obtain rfl : t = v.tree := (List.cons.inj hv).1
  obtain ⟨after, hsteps, -⟩ := v.exists_steps_eq
  exact ⟨_, after, .variable hsteps⟩

theorem exists_params (h : Spells (.rule .parameters) [t]) : ∃ ps : Params, t = ps.tree := by
  obtain ⟨ps, hps⟩ := spells_params? (spells_option.mpr (.inr h))
  cases ps with
  | none => cases hps
  | some ps => exact ⟨ps, (List.cons.inj hps).1⟩

theorem exists_declares_of_function (h : Spells (.rule .function) [t]) :
    ∃ f after, Declares t [] .function f after := by
  obtain ⟨cs, hcs, htree⟩ := spells_rule.mp h
  obtain rfl : t = .node .function cs := (List.cons.inj htree).1
  obtain ⟨name, params, body, rfl⟩ := (readable _).function (Nat.le_refl _) hcs
  exact ⟨_, _, .function rfl⟩

theorem exists_declares_of_outcome (ht : Spells (.rule .varDecl) [t] ∨ Spells (.rule .parameters) [t]) {k : Standing}
    (h : s.outcome t = (some (.alreadyDeclared what x), k)) :
    ∃ before after g, Declares t before what x after ∧ execute before ⟨s.standing, none⟩ = (none, g) ∧
      g.toStanding = k := by
  rcases ht with ht | ht
  · obtain ⟨v, hv⟩ := spells_varDecl ht
    obtain rfl : t = v.tree := (List.cons.inj hv).1
    rw [outcome_of_follows (v.follows _)] at h
    obtain ⟨herror, rfl⟩ := Prod.mk.inj h
    obtain ⟨before, step, after, hsteps, hbefore, hrun⟩ := execute_eq_some.mp (Prod.ext herror rfl)
    obtain ⟨rfl, -⟩ := run_eq_alreadyDeclared.mp hrun
    obtain ⟨rest, hrest, hnone⟩ := v.exists_steps_eq
    cases before with
    | nil =>
      obtain ⟨hfirst, rfl⟩ := List.cons.inj (hrest.symm.trans hsteps)
      cases hfirst
      exact ⟨[], _, _, .variable hrest, hbefore, rfl⟩
    | cons first before =>
      obtain ⟨-, rfl⟩ := List.cons.inj (hrest.symm.trans hsteps)
      exact absurd (List.mem_append_right before (.head after)) (hnone what x)
  · obtain ⟨ps, rfl⟩ := exists_params ht
    rw [outcome_of_follows (ps.follows _)] at h
    obtain ⟨herror, rfl⟩ := Prod.mk.inj h
    obtain ⟨before, step, after, hsteps, hbefore, hrun⟩ := execute_eq_some.mp (Prod.ext herror rfl)
    obtain ⟨rfl, -⟩ := run_eq_alreadyDeclared.mp hrun
    obtain ⟨names, more, hnames, rfl, hmore⟩ := List.map_eq_append_iff.mp hsteps
    obtain ⟨y, later, rfl, hy, rfl⟩ := List.map_eq_cons_iff.mp hmore
    cases hy
    exact ⟨_, _, _, .parameter hnames, hbefore, rfl⟩

end Syntax

section Declaring

variable {s : AnalysisState} {before : List Step} {g : Stage} (hbefore : execute before ⟨s.standing, none⟩ = (none, g))
  (what : Declared) (x : String) (after : List Step)
include hbefore

theorem AnalysisState.after_declare :
    s.after (before ++ declare what x :: after) =
      match (declare what x).run g with
      | .ok g' => ((execute after g').1, (execute after g').2.toStanding)
      | .error e => (some e, g.toStanding) := by
  rw [AnalysisState.after, execute_append, hbefore]
  simp only [execute]
  cases (declare what x).run g <;> rfl

theorem AnalysisState.after_declare_iff :
    s.after (before ++ declare what x :: after) = (some (.alreadyDeclared what x), g.toStanding) ↔
      g.scopes.Holds x what.category := by
  rw [AnalysisState.after_declare hbefore]
  constructor
  · intro h
    cases hrun : (declare what x).run g with
    | error e =>
      rw [hrun] at h
      cases h
      exact (run_eq_alreadyDeclared.mp hrun).2
    | ok g' =>
      -- A later objection to the same name would have been made on a stage with more names.
      rw [hrun] at h
      exact absurd (congrArg Prod.snd h) (toStanding_ne_of_declare hrun after)
  · intro hheld
    rw [run_eq_alreadyDeclared.mpr ⟨rfl, hheld⟩]

theorem AnalysisState.after_declare_of_free (hfree : ¬g.scopes.Holds x what.category)
    (hnew : g.scopes.current.table.lookup x = none) :
    s.after (before ++ declare what x :: after) =
      ((execute after { g with scopes := g.scopes.declared what x }).1,
        (execute after { g with scopes := g.scopes.declared what x }).2.toStanding) := by
  have hrun : (declare what x).run g = .ok { g with scopes := g.scopes.declared what x } := by
    rw [run, declareIn_eq, if_neg (fun hfound => hfree (Scopes.find?_isSome_iff.mp hfound)), hnew]
    rfl
  rw [AnalysisState.after_declare hbefore, hrun]

end Declaring

namespace Syntax

/-- Each visit that declares a name refuses it where any open scope has it for something of the same category. That is
to judge by the current scope unless a scope around it has the name in its place, and then the name is refused too. -/
theorem redeclaration_judged_on_chain (s : AnalysisState) :
    (∀ t, Spells (.rule .varDecl) [t] → ∃ x after, Declares t [] .variable x after) ∧
    (∀ t, Spells (.rule .function) [t] → ∃ f after, Declares t [] .function f after) ∧
    (∀ t, Spells (.rule .parameters) [t] → ∃ ps : Params, t = ps.tree) ∧
    (∀ t what x k, Spells (.rule .varDecl) [t] ∨ Spells (.rule .parameters) [t] →
      s.outcome t = (some (.alreadyDeclared what x), k) → ∃ before after g, Declares t before what x after ∧
        execute before ⟨s.standing, none⟩ = (none, g) ∧ g.toStanding = k) ∧
    ∀ t before what x after, Declares t before what x after →
      ∀ g, execute before ⟨s.standing, none⟩ = (none, g) →
        let refused := s.outcome t = (some (.alreadyDeclared what x), g.toStanding)
        (refused ↔ g.scopes.Holds x what.category) ∧
        ((refused ↔ g.scopes.current.holds x what.category = true) ↔ ¬g.scopes.Conceals x what.category) ∧
        (¬g.scopes.Holds x what.category → g.scopes.current.table.lookup x = none →
          s.outcome t = ((execute after { g with scopes := g.scopes.declared what x }).1,
            (execute after { g with scopes := g.scopes.declared what x }).2.toStanding)) := by
  refine ⟨fun t => exists_declares_of_varDecl, fun t => exists_declares_of_function, fun t => exists_params,
    fun t what x k ht => exists_declares_of_outcome ht, ?_⟩
  intro t before what x after h g hbefore refused
  have hrefused : refused ↔ g.scopes.Holds x what.category := by
    simp only [refused, h.outcome_eq s]
    exact AnalysisState.after_declare_iff hbefore what x after
  refine ⟨hrefused, ?_, ?_⟩
  · rw [hrefused, Scopes.holds_iff]
    constructor
    · intro hsame hconceals
      have hcurrent := hsame.mp (.inr hconceals)
      rw [hconceals.1] at hcurrent
      cases hcurrent
    · intro hconceals
      exact or_iff_left hconceals
  · intro hfree hnew
    rw [h.outcome_eq s]
    exact AnalysisState.after_declare_of_free hbefore what x after hfree hnew

theorem inner_variable_refused : ∃ d, parseText .program "var x; { var x; }" = .ok d ∧
    let s := (AnalysisState.start.analyse d.tree).2
    (AnalysisState.start.outcome d.tree).1 = some (.alreadyDeclared .variable "x") ∧
      s.scopes.Conceals "x" .variables ∧
      ∀ t after, Declares t [] .variable "x" after →
        s.outcome t = (some (.alreadyDeclared .variable "x"), s.standing) := by
  obtain ⟨d, hd, hrefused⟩ := exists_derived "var x; { var x; }"
    (fun d => decide ((AnalysisState.start.outcome d.tree).1 = some (.alreadyDeclared .variable "x")) &&
      (!(AnalysisState.start.analyse d.tree).2.scopes.current.holds "x" .variables &&
        (AnalysisState.start.analyse d.tree).2.scopes.outer.any fun f => f.holds "x" .variables)) (by decide +kernel)
  simp only [Bool.and_eq_true, decide_eq_true_eq, Bool.not_eq_true', List.any_eq_true] at hrefused
  obtain ⟨herror, hconceals⟩ := hrefused
  refine ⟨d, hd, herror, hconceals, ?_⟩
  intro t after ht
  have hchain := (redeclaration_judged_on_chain (AnalysisState.start.analyse d.tree).2).2.2.2.2
  exact (hchain t [] .variable "x" after ht _ rfl).1.mpr (Scopes.holds_iff.mpr (.inr hconceals))

end Syntax

end CompiScript
