import CompiScript.Proofs.Links.Calls
import CompiScript.Proofs.Settling.Types

namespace CompiScript

open Syntax Step

def Scopes.count (s : Scopes) : Nat :=
  s.links.scopes.length

theorem Scopes.count_enter (s : Scopes) (name : String) : (s.enter name).count = s.count + 1 := by
  rw [count, links_enter, Links.length_enter, count]

theorem Step.run_count_le {s : Step} {g g' : Stage} (h : s.run g = .ok g') : g.scopes.count ≤ g'.scopes.count := by
  have hsketch := s.run_sketch h
  rw [Scopes.count, Scopes.count, Scopes.links_eq g'.scopes, hsketch, Scopes.links_eq g.scopes]
  cases s with
  | enter scope =>
    rw [Step.sketch, Sketch.links_enter, Links.length_enter]
    omega
  | exit =>
    rw [Step.sketch, ← Scopes.exit_sketch, ← Scopes.links_eq, ← Scopes.links_eq, Scopes.links_exit]
    apply Nat.le_of_eq
    rw [Links.exit]
    split <;> rfl
  | declare what name =>
    apply Nat.le_of_eq
    rw [Step.sketch, Sketch.links_extend]
  | _ => exact Nat.le_refl _

theorem execute_count_le (steps : List Step) (g : Stage) : g.scopes.count ≤ (execute steps g).2.scopes.count := by
  apply execute_invariant (P := fun h => g.scopes.count ≤ h.scopes.count)
  · intro s g₁ g₂ hs hg
    exact Nat.le_trans hg (s.run_count_le hs)
  · exact Nat.le_refl _

def AnalysisState.after (s : AnalysisState) (steps : List Step) : Option AnalysisError × Standing :=
  ((execute steps ⟨s.standing, none⟩).1, (execute steps ⟨s.standing, none⟩).2.toStanding)

namespace Syntax

structure Roles where
  condition : Option Expression
  update : Option Expression

def Roles.steps (r : Roles) : List Step :=
  (match r.condition with
    | none => []
    | some c => c.steps ++ [require " in for loop condition"]) ++
  match r.update with
  | none => []
  | some u => u.steps

namespace ForHead

/-- The condition stands in front of the last semicolon, the update behind it. -/
def bySemicolons (head : ForHead) : Roles :=
  ⟨head.condition, head.update⟩

def byNumber (head : ForHead) : Roles :=
  ⟨(head.condition.toList ++ head.update.toList)[0]?, (head.condition.toList ++ head.update.toList)[1]?⟩

def opening (head : ForHead) : List Step :=
  enter "For Loop" :: head.init.steps

def closing (body : Statement) : List Step :=
  enter "For Loop Body" :: body.steps none none ++ [exit, exit]

def loop (head : ForHead) (roles : Roles) (body : Statement) : List Step :=
  head.opening ++ roles.steps ++ closing body

structure Misread (head : ForHead) (s : AnalysisState) (g : Stage) : Prop where
  condition : head.condition = none
  update : ∃ u, head.update = some u ∧ execute (head.opening ++ u.steps) ⟨s.standing, none⟩ = (none, g)
  type : g.type ≠ some .boolean

theorem byNumber_eq_bySemicolons {head : ForHead} :
    head.byNumber = head.bySemicolons ↔ head.condition.isSome = true ∨ head.update = none := by
  obtain ⟨init, condition, update⟩ := head
  cases condition <;> cases update <;> simp [byNumber, bySemicolons]

theorem steps_forLoop (head : ForHead) (body : Statement) (scope owner : Option String) :
    (Statement.forLoop head body).steps scope owner = head.loop head.byNumber body := by
  obtain ⟨init, condition, update⟩ := head
  cases condition <;> cases update <;>
    simp [Statement.steps, ForHead.steps, headSteps, loop, opening, closing, byNumber, Roles.steps]

section Alone

variable {head : ForHead} {u : Expression} (hcondition : head.condition = none) (hupdate : head.update = some u)
include hcondition hupdate

theorem loop_byNumber (body : Statement) :
    head.loop head.byNumber body =
      (head.opening ++ u.steps) ++ require " in for loop condition" :: closing body := by
  simp [loop, byNumber, Roles.steps, hcondition, hupdate]

theorem loop_bySemicolons (body : Statement) :
    head.loop head.bySemicolons body = (head.opening ++ u.steps) ++ closing body := by
  simp [loop, bySemicolons, Roles.steps, hcondition, hupdate]

end Alone

theorem require_run {g : Stage} (place : String) :
    Step.run g (require place) = if g.type = some .boolean then .ok g else .error (.expectedBoolean place) := by
  rw [Step.run, Operand.checkBoolean]
  split <;> rfl

variable {head : ForHead} {s : AnalysisState} {g : Stage}

theorem Misread.execute_byNumber (h : head.Misread s g) (body : Statement) :
    execute (head.loop head.byNumber body) ⟨s.standing, none⟩ =
      (some (.expectedBoolean " in for loop condition"), g) := by
  obtain ⟨u, hu, hexecute⟩ := h.update
  rw [loop_byNumber h.condition hu, execute_append, hexecute]
  simp only [execute, require_run, if_neg h.type]

theorem Misread.count_lt (h : head.Misread s g) (body : Statement) :
    g.scopes.count < (execute (head.loop head.bySemicolons body) ⟨s.standing, none⟩).2.scopes.count := by
  obtain ⟨u, hu, hexecute⟩ := h.update
  rw [loop_bySemicolons h.condition hu, execute_append, hexecute]
  -- By the semicolons the loop goes on into its body, which has a scope of its own.
  have hlater := execute_count_le (body.steps none none ++ [exit, exit])
    { g with scopes := g.scopes.enter "For Loop Body" }
  rw [Scopes.count_enter] at hlater
  exact hlater

theorem Misread.after_ne (h : head.Misread s g) (body : Statement) :
    s.after (head.loop head.byNumber body) ≠ s.after (head.loop head.bySemicolons body) := by
  intro hsame
  have hstanding := (Prod.mk.inj hsame).2
  rw [h.execute_byNumber] at hstanding
  have hscopes := congrArg (fun k : Standing => k.scopes.count) hstanding
  exact absurd hscopes (Nat.ne_of_lt (h.count_lt body))

theorem execute_loop_eq (h : ∀ g, ¬head.Misread s g) (body : Statement) :
    execute (head.loop head.byNumber body) ⟨s.standing, none⟩ =
      execute (head.loop head.bySemicolons body) ⟨s.standing, none⟩ := by
  by_cases hroles : head.byNumber = head.bySemicolons
  · rw [hroles]
  rw [byNumber_eq_bySemicolons, not_or] at hroles
  obtain ⟨hcondition, hupdate⟩ := hroles
  rw [Bool.not_eq_true, Option.isSome_eq_false_iff, Option.isNone_iff_eq_none] at hcondition
  obtain ⟨u, hu⟩ := Option.ne_none_iff_exists'.mp hupdate
  rw [loop_byNumber hcondition hu, loop_bySemicolons hcondition hu, execute_append _ (require _ :: _),
    execute_append _ (closing body)]
  match hexecute : execute (head.opening ++ u.steps) ⟨s.standing, none⟩ with
  | (some e, g) => rfl
  | (none, g) =>
    have htype : g.type = some .boolean :=
      Decidable.not_not.mp fun hother => h g ⟨hcondition, ⟨u, hu, hexecute⟩, hother⟩
    simp only [execute, require_run, if_pos htype]

theorem execute_target_ne {u : Expression} {x : String} (hcondition : head.condition = none)
    (hupdate : head.update = some u) (hx : x ∈ u.targets) (body : Statement) :
    (execute (head.loop head.byNumber body) ⟨s.standing, none⟩).1 ≠ none := by
  intro hnone
  have hloop : execute (head.loop head.byNumber body) ⟨s.standing, none⟩ =
      (none, (execute (head.loop head.byNumber body) ⟨s.standing, none⟩).2) := Prod.ext hnone rfl
  rw [loop_byNumber hcondition hupdate] at hloop
  obtain ⟨g₂, hfront, hback⟩ := execute_append_ok hloop
  obtain ⟨g₁, -, hvalue⟩ := execute_append_ok hfront
  obtain ⟨g₃, hrequire, -⟩ := execute_cons_ok hback
  rw [require_run, if_neg (by rw [Expression.type_of_target hx hvalue]; nofun)] at hrequire
  cases hrequire

end ForHead

theorem outcome_forLoop (head : ForHead) (body : Statement) (s : AnalysisState) :
    s.outcome (.node .forStmt (head.trees ++ [body.tree])) = s.after (head.loop head.byNumber body) := by
  rw [outcome_of_follows (forStmt_follows body.followed _ none none), head.steps_forLoop]
  rfl

/-- The visit of a loop takes the expressions of its head by their number, which is to take them by the semicolons
exactly if there is a condition or no update. It comes to the same in a state unless an update that stands alone is
accepted there and is not boolean; then the update is refused as a condition. -/
theorem loop_roles_by_number (s : AnalysisState) :
    (∀ t, Spells (.rule .forStmt) [t] →
      ∃ (head : ForHead) (body : Statement), t = .node .forStmt (head.trees ++ [body.tree])) ∧
    ∀ (head : ForHead) (body : Statement),
      let outcome := s.outcome (.node .forStmt (head.trees ++ [body.tree]))
      outcome = s.after (head.loop head.byNumber body) ∧
      (head.byNumber = head.bySemicolons ↔ head.condition.isSome = true ∨ head.update = none) ∧
      (outcome = s.after (head.loop head.bySemicolons body) ↔ ∀ g, ¬head.Misread s g) ∧
      (∀ g, head.Misread s g → outcome = (some (.expectedBoolean " in for loop condition"), g.toStanding)) ∧
      (head.condition = none → ∀ u x, head.update = some u → x ∈ u.targets → outcome.1 ≠ none) := by
  constructor
  · intro t ht
    obtain ⟨cs, hcs, htree⟩ := spells_rule.mp ht
    obtain rfl : t = .node .forStmt cs := (List.cons.inj htree).1
    obtain ⟨head, body, rfl⟩ := (readable _).forStmt (Nat.le_refl _) hcs
    exact ⟨head, body, rfl⟩
  · intro head body
    simp only [outcome_forLoop]
    refine ⟨trivial, ForHead.byNumber_eq_bySemicolons, ⟨?_, ?_⟩, ?_, ?_⟩
    · intro hsame g h
      exact h.after_ne body hsame
    · intro h
      rw [AnalysisState.after, ForHead.execute_loop_eq h]
      rfl
    · intro g h
      rw [AnalysisState.after, h.execute_byNumber]
    · intro hcondition u x hupdate hx
      exact ForHead.execute_target_ne hcondition hupdate hx body

namespace Counting

def program : Program :=
  ⟨[.variable ⟨.named "x", none⟩]⟩

def update : Expression :=
  .assignment (.assign none (.named "x") (.operation (.ofUnary (.call (.primary (.number "1") [])))))

def head : ForHead :=
  ⟨.nothing, none, some update⟩

def body : Statement :=
  .block []

def state : AnalysisState :=
  (AnalysisState.start.analyse program.tree).2

theorem misread : head.Misread state (execute (head.opening ++ update.steps) ⟨state.standing, none⟩).2 :=
  ⟨rfl, ⟨update, rfl, Prod.ext (by decide +kernel) rfl⟩, by decide +kernel⟩

end Counting

theorem lone_update_refused :
    (∃ d, parseText .forStmt "for (;; x = 1) { }" = .ok d ∧
      d.tree = .node .forStmt (Counting.head.trees ++ [Counting.body.tree]) ∧
      (Counting.state.outcome d.tree).1 = some (.expectedBoolean " in for loop condition")) ∧
    (Counting.state.after (Counting.head.loop Counting.head.bySemicolons Counting.body)).1 = none := by
  have hparse : (parseText .forStmt "for (;; x = 1) { }").toOption.map Derived.tree =
      some (.node .forStmt (Counting.head.trees ++ [Counting.body.tree])) := by
    decide +kernel
  obtain ⟨d, hd, htree⟩ := exists_derived_of_tree hparse
  obtain ⟨-, hroles⟩ := loop_roles_by_number Counting.state
  obtain ⟨-, -, -, hrefused, -⟩ := hroles Counting.head Counting.body
  refine ⟨⟨d, hd, htree, ?_⟩, by decide +kernel⟩
  rw [htree, hrefused _ Counting.misread]

end Syntax

end CompiScript
