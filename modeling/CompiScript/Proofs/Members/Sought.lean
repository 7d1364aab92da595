import CompiScript.Proofs.Members.Statements

namespace CompiScript

open Syntax Step
open CompiScript.Tree

theorem Step.has_of_sketch {s : Step} {k : Sketch} {y : String} {c : Category} (h : (s.sketch k).Has y c) :
    k.Has y c ∨ ∃ what, s = declare what y := by
  obtain ⟨⟨name, level, keys, children⟩, outer, depth⟩ := k
  obtain ⟨o, ho, hy⟩ := h
  cases s with
  | enter scope =>
    rcases List.mem_cons.mp ho with rfl | hmem
    · cases hy
    · exact .inl ⟨o, hmem, hy⟩
  | exit =>
    left
    cases outer with
    | nil => exact ⟨o, ho, hy⟩
    | cons p outer =>
      obtain ⟨pname, plevel, pkeys, pchildren⟩ := p
      rcases List.mem_cons.mp ho with rfl | hmem
      · change (y, c) ∈ pkeys ++ [] at hy
        rw [List.append_nil] at hy
        exact ⟨_, .tail _ (.head _), hy⟩
      · exact ⟨o, .tail _ (.tail _ hmem), hy⟩
  | declare what x =>
    rcases List.mem_cons.mp ho with rfl | hmem
    · rcases List.mem_append.mp hy with hold | hnew
      · exact .inl ⟨_, .head _, hold⟩
      · cases List.mem_singleton.mp hnew
        exact .inr ⟨what, rfl⟩
    · exact .inl ⟨o, .tail _ hmem, hy⟩
  | _ => exact .inl ⟨o, ho, hy⟩

theorem exists_declare_of_has {steps : List Step} {k : Sketch} {y : String} {c : Category}
    (h : (sketchAll steps k).Has y c) : k.Has y c ∨ ∃ what, declare what y ∈ steps := by
  induction steps generalizing k with
  | nil => exact .inl h
  | cons s steps ih =>
    rcases ih h with hs | ⟨what, hmem⟩
    · rcases s.has_of_sketch hs with hk | ⟨what, rfl⟩
      · exact .inl hk
      · exact .inr ⟨what, .head _⟩
    · exact .inr ⟨what, .tail _ hmem⟩

theorem find?_of_not_declared {steps : List Step} {g : Stage} {y : String} (h : execute steps .start = (none, g))
    (hy : ∀ what, declare what y ∉ steps) : g.scopes.find? y (some .variables) = none := by
  cases hfound : g.scopes.find? y (some .variables) with
  | none => rfl
  | some s =>
    have hhas : g.scopes.sketch.Has y .variables := Scopes.has_of_find? (by decide) (by rw [hfound]; rfl)
    rw [execute_sketch h] at hhas
    rcases exists_declare_of_has hhas with ⟨o, ho, hkey⟩ | ⟨what, hmem⟩
    · rw [List.mem_singleton.mp ho] at hkey
      cases hkey
    · exact absurd hmem (hy what)

theorem execute_of_diverges {x z : String} {steps steps' : List Step} (h : Diverges x z steps steps')
    (hz : ∀ what, declare what z ∉ steps) :
    ∃ err g, execute steps' .start = (some err, g) ∧ (execute steps .start = (some err, g) ∨
      err.missing? = some z ∧ (g.scopes.find? x (some .variables) = none →
        ∃ old, execute steps .start = (some old, g) ∧ old.missing? = some x)) := by
  obtain ⟨before, s, s', after, after', rfl, rfl, hmisses⟩ := h
  rw [execute_append before (s :: after), execute_append before (s' :: after')]
  match hbefore : execute before .start with
  | (some err, g) => exact ⟨err, g, rfl, .inl rfl⟩
  | (none, g) =>
    have hfree := find?_of_not_declared hbefore fun what hmem => hz what (List.mem_append_left _ hmem)
    obtain ⟨err, hs', hsame | ⟨hmissing, hx⟩⟩ := hmisses g hfree
    · exact ⟨err, g, by simp only [execute, hs'], .inl (by simp only [execute, hsame])⟩
    · refine ⟨err, g, by simp only [execute, hs'], .inr ⟨hmissing, fun hnone => ?_⟩⟩
      obtain ⟨old, hold, hmissed⟩ := hx hnone
      exact ⟨old, by simp only [execute, hold], hmissed⟩

theorem Syntax.Program.outcome_of_execute {p : Program} {r : Option AnalysisError} {g : Stage}
    (h : execute p.steps .start = (r, g)) : AnalysisState.start.outcome p.tree = (r, g.toStanding) := by
  have hrun : execute p.steps ⟨AnalysisState.start.standing, none⟩ = (r, g) := h
  rw [outcome_program, hrun]

theorem Syntax.Program.declare_not_mem {p : Program} {y : String} (h : y ∉ p.tree.identifiers) (what : Declared) :
    declare what y ∉ p.steps := by
  have hwithin : p.tree.Within fun x => x ≠ y := by
    rintro x hx rfl
    exact h hx
  intro hmem
  exact p.confined hwithin _ hmem rfl

/-- A name that occurs nowhere else is put in the place of a member. Where the analysis passes over the member, nothing
changes. Everywhere else the program is refused: as before, or because the new name is missing, as the old one was if no
variable has it. -/
theorem replaced_member_sought {text : String} {d : Derived} (h : parseText .program text = .ok d) {x : String}
    {z : Name} {t' : Tree} (hz : z.text ∉ d.tree.identifiers) (ht : MemberReplaced x z d.tree t') :
    let outcome := AnalysisState.start.outcome d.tree
    let outcome' := AnalysisState.start.outcome t'
    (t'.erase = d.tree.erase → outcome' = outcome) ∧
    (t'.erase ≠ d.tree.erase → ∃ err k, outcome' = (some err, k) ∧ (outcome = (some err, k) ∨
      err.missing? = some z.text ∧ (k.scopes.find? x (some .variables) = none →
        ∃ old, outcome = (some old, k) ∧ old.missing? = some x))) ∧
    (outcome.1 = none → (outcome'.1 = none ↔ t'.erase = d.tree.erase)) := by
  intro outcome outcome'
  obtain ⟨p, hp⟩ := parseText_program h
  rw [← hp] at hz ht
  obtain ⟨p', rfl, hkept⟩ := p.replaced ht
  have hsame : p'.tree.erase = d.tree.erase → outcome' = outcome := by
    intro herase
    simp only [outcome, outcome']
    rw [← p'.outcome_erase, herase, ← hp, p.outcome_erase]
  have hrefused : p'.tree.erase ≠ d.tree.erase → ∃ err k, outcome' = (some err, k) ∧ (outcome = (some err, k) ∨
      err.missing? = some z.text ∧ (k.scopes.find? x (some .variables) = none →
        ∃ old, outcome = (some old, k) ∧ old.missing? = some x)) := by
    intro hne
    rw [← hp] at hne
    obtain ⟨err, g, hrun', hrun⟩ := execute_of_diverges (hkept.resolve_left hne) (p.declare_not_mem hz)
    simp only [outcome, outcome', ← hp]
    refine ⟨err, g.toStanding, Program.outcome_of_execute hrun', hrun.imp Program.outcome_of_execute ?_⟩
    rintro ⟨hmissing, hx⟩
    refine ⟨hmissing, fun hnone => ?_⟩
    obtain ⟨old, hold, hmissed⟩ := hx hnone
    exact ⟨old, Program.outcome_of_execute hold, hmissed⟩
  refine ⟨hsame, hrefused, fun haccepted => ⟨fun haccepted' => ?_, fun herase => ?_⟩⟩
  · refine Decidable.byContradiction fun hne => ?_
    obtain ⟨err, k, herror, -⟩ := hrefused hne
    rw [herror] at haccepted'
    cases haccepted'
  · rw [hsame herase, haccepted]

namespace Pointed

def x : Name :=
  .named "x"

def y : Name :=
  .named "y"

def one : Expression :=
  .assignment (.operation (.ofUnary (.call (.primary (.number "1") []))))

def program (m : Name) : Program :=
  ⟨[.variable ⟨x, some one⟩, .statement (.expression (.assignment (.assign (some [(Primary.name x).tree]) m
    (.operation (.ofUnary (.call (.primary (.number "1") [])))))))]⟩

theorem replaced : MemberReplaced "x" y (program x).tree (program y).tree :=
  .inside (.there (.here (.inside (.here (.inside (.here (.inside (.here (.inside (.here (.target _ _)))))))))))

end Pointed

theorem member_without_variable_refused : ∃ d d', parseText .program "var x = 1; x.x = 1;" = .ok d ∧
    parseText .program "var x = 1; x.y = 1;" = .ok d' ∧ MemberReplaced "x" Pointed.y d.tree d'.tree ∧
    (AnalysisState.start.outcome d.tree).1 = none ∧ (AnalysisState.start.outcome d'.tree).1 ≠ none ∧
    (AnalysisState.start.outcome d'.tree).1.bind AnalysisError.missing? = some "y" := by
  have hparse : (parseText .program "var x = 1; x.x = 1;").toOption.map Derived.tree =
      some (Pointed.program Pointed.x).tree := by
    decide +kernel
  have hparse' : (parseText .program "var x = 1; x.y = 1;").toOption.map Derived.tree =
      some (Pointed.program Pointed.y).tree := by
    decide +kernel
  obtain ⟨d, hd, htree⟩ := exists_derived_of_tree hparse
  obtain ⟨d', hd', htree'⟩ := exists_derived_of_tree hparse'
  have hreplaced : MemberReplaced "x" Pointed.y d.tree d'.tree := by
    rw [htree, htree']
    exact Pointed.replaced
  have hnew : Pointed.y.text ∉ d.tree.identifiers := by
    rw [htree]
    decide +kernel
  have haccepted : (AnalysisState.start.outcome d.tree).1 = none := by
    rw [htree]
    decide +kernel
  obtain ⟨-, -, hlaw⟩ := replaced_member_sought hd hnew hreplaced
  refine ⟨d, d', hd, hd', hreplaced, haccepted, ?_, ?_⟩
  · intro haccepted'
    have herase := (hlaw haccepted).mp haccepted'
    rw [htree, htree'] at herase
    exact absurd herase (by decide +kernel)
  · rw [htree']
    decide +kernel

end CompiScript
