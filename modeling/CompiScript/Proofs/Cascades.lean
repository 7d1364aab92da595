import CompiScript.Proofs.Chains.Levels
import CompiScript.Proofs.Failures.Broken
import CompiScript.Proofs.Settling.Types

namespace CompiScript

open Syntax Step

namespace Scopes

def typeOf? (s : Scopes) (x : String) : Option (Option Ty) :=
  (s.find? x (some .variables)).map Symbol.type?

theorem typeOf?_eq_typeAt (s : Scopes) (x : String) :
    s.typeOf? x = (s.home? x .variables).bind fun n => s.typeAt n x := by
  cases hfound : s.find? x (some .variables) with
  | none =>
    have hhome : s.home? x .variables = none := homeIn_eq_none hfound
    rw [typeOf?, hfound, hhome]
    rfl
  | some symbol =>
    obtain ⟨n, hn⟩ := home?_of_find? (Option.isSome_iff_exists.mpr ⟨symbol, hfound⟩)
    rw [typeOf?, hn, Option.bind_some, typeAt_home hn, hfound]
    rfl

theorem typeOf?_setType {s : Scopes} {x : String} (hx : (s.typeOf? x).isSome = true) (t : Option Ty) (y : String) :
    (s.setType x t).typeOf? y = if y = x then some t else s.typeOf? y := by
  have hhome : (s.setType x t).home? y .variables = s.home? y .variables :=
    home?_congr (s.setType_sketch x t) y (by decide)
  simp only [typeOf?_eq_typeAt, hhome, typeAt_setType]
  by_cases hy : y = x
  · subst hy
    have hfound : (s.find? y (some .variables)).isSome = true := by simpa [typeOf?] using hx
    obtain ⟨n, hn⟩ := home?_of_find? hfound
    simp [hn]
  · simp [hy]

theorem typeOf?_setType_none {s : Scopes} {x : String} (hx : s.typeOf? x = some none) (y : String) :
    (s.setType x none).typeOf? y = s.typeOf? y := by
  rw [typeOf?_setType (by rw [hx]; rfl)]
  by_cases hy : y = x
  · rw [if_pos hy, hy, hx]
  · rw [if_neg hy]

end Scopes

namespace Step

variable {g : Stage} {x : String}

theorem run_aim_declared (h : (g.scopes.typeOf? x).isSome = true) : run g (aim x) = .ok g := by
  apply Takes.run (.aim _)
  simpa [Scopes.typeOf?] using h

theorem run_assign_untyped (h : g.scopes.typeOf? x = some none) :
    run g (assign x) = .ok { g with scopes := g.scopes.setType x g.type, type := none } := by
  obtain ⟨symbol, hfound, htype⟩ := Option.map_eq_some_iff.mp h
  apply Takes.run (.assignFirst _)
  rw [hfound, Option.bind_some, htype]

theorem run_assign_typed {t : Ty} (h : g.scopes.typeOf? x = some (some t)) (hg : g.type = none) :
    run g (assign x) = .error (.cannotAssign none x (some t)) := by
  have hnone : t.text ≠ Ty.show? none := by
    rcases t with d | d <;> cases d <;> decide
  obtain ⟨symbol, hfound, htype⟩ := Option.map_eq_some_iff.mp h
  simp only [run, assignIn, hfound, Option.bind_some, htype, hg, if_pos hnone]

end Step

namespace Syntax

theorem Name.eq_of_text {x y : Name} (h : x.text = y.text) : x = y := by
  obtain ⟨text, plain⟩ := x
  cases h
  rfl

def cascade : List Name → LogicOr → Assignment
  | [], e => .operation e
  | x :: xs, e => .assign none x (cascade xs e)

theorem steps_cascade (xs : List Name) (e : LogicOr) :
    (cascade xs e).steps = xs.map (fun x => aim x.text) ++ weigh e :: xs.reverse.map fun x => assign x.text := by
  induction xs with
  | nil => rfl
  | cons x xs ih => simp [cascade, Assignment.steps, ih]

theorem execute_aims {xs : List Name} {g : Stage} (h : ∀ x ∈ xs, (g.scopes.typeOf? x.text).isSome = true) :
    execute (xs.map fun x => aim x.text) g = (none, g) := by
  induction xs with
  | nil => rfl
  | cons x xs ih =>
    rw [List.forall_mem_cons] at h
    rw [List.map_cons, execute, run_aim_declared h.1]
    exact ih h.2

theorem execute_idle {xs : List Name} {g : Stage} (hg : g.type = none)
    (h : ∀ x ∈ xs, g.scopes.typeOf? x.text = some none) :
    ∃ g', execute (xs.map fun x => assign x.text) g = (none, g') ∧ g'.type = none ∧
      ∀ y, g'.scopes.typeOf? y = g.scopes.typeOf? y := by
  induction xs generalizing g with
  | nil => exact ⟨g, rfl, hg, fun _ => rfl⟩
  | cons x xs ih =>
    rw [List.forall_mem_cons] at h
    have hkept := Scopes.typeOf?_setType_none h.1
    obtain ⟨g', hexecute, hg', htypes⟩ := ih (g := { g with scopes := g.scopes.setType x.text none, type := none }) rfl
      fun y hy => (hkept y.text).trans (h.2 y hy)
    refine ⟨g', ?_, hg', fun y => (htypes y).trans (hkept y)⟩
    rw [List.map_cons, execute, run_assign_untyped h.1, hg]
    exact hexecute

section Cascade

variable {s : AnalysisState} {front : List Name} {last : Name} {e : LogicOr} {t : Option Ty}

def settled (s : AnalysisState) (last : Name) (t : Option Ty) : Stage :=
  { s.standing with scopes := s.scopes.setType last.text t, type := none }

variable (hfree : ∀ x ∈ front ++ [last], s.scopes.typeOf? x.text = some none)
include hfree

theorem typeOf?_settled (y : String) :
    (settled s last t).scopes.typeOf? y = if y = last.text then some t else s.scopes.typeOf? y := by
  apply Scopes.typeOf?_setType
  rw [hfree last (by simp)]
  rfl

theorem typeOf?_settled_front {x : Name} (hx : x ∈ front) (h : t = none ∨ x ≠ last) :
    (settled s last t).scopes.typeOf? x.text = some none := by
  rw [typeOf?_settled hfree]
  by_cases htext : x.text = last.text
  · rw [if_pos htext, h.resolve_right fun hne => hne (Name.eq_of_text htext)]
  · rw [if_neg htext]
    exact hfree x (List.mem_append_left _ hx)

theorem forall_typeOf?_iff {k : Scopes} (hcase : t = none ∨ last ∉ front)
    (htypes : ∀ y, k.typeOf? y = if y = last.text then some t else s.scopes.typeOf? y) :
    (∀ x ∈ front ++ [last], k.typeOf? x.text = some t) ↔ t = none ∨ front = [] := by
  constructor
  · intro hall
    cases front with
    | nil => exact .inr rfl
    | cons x rest =>
      left
      by_cases htext : x.text = last.text
      · exact hcase.resolve_right fun hlast => hlast (Name.eq_of_text htext ▸ List.mem_cons_self)
      · have hx := hall x List.mem_cons_self
        rw [htypes, if_neg htext, hfree x List.mem_cons_self] at hx
        exact (Option.some.inj hx).symm
  · rintro (rfl | rfl) x hx
    · rw [htypes, hfree x hx, ite_self]
    · rw [htypes, if_pos (congrArg Name.text (List.mem_singleton.mp hx))]

variable (he : e.type s.standing = .ok t)
include he

theorem execute_cascade :
    execute (cascade (front ++ [last]) e).steps ⟨s.standing, none⟩ =
      execute (front.reverse.map fun x => assign x.text) (settled s last t) := by
  have hlast : s.scopes.typeOf? last.text = some none := hfree last (by simp)
  have haims : execute ((front ++ [last]).map fun x => aim x.text) ⟨s.standing, none⟩ = (none, ⟨s.standing, none⟩) := by
    apply execute_aims
    intro x hx
    change (s.scopes.typeOf? x.text).isSome = true
    rw [hfree x hx]
    rfl
  have hweigh : Step.run ⟨s.standing, none⟩ (weigh e) = .ok ⟨s.standing, t⟩ := by
    rw [Step.run, he]
    rfl
  have hassign : Step.run ⟨s.standing, t⟩ (assign last.text) = .ok (settled s last t) := run_assign_untyped hlast
  rw [steps_cascade, execute_append, haims, List.reverse_append]
  simp only [List.reverse_singleton, List.singleton_append, List.map_cons, execute, hweigh, hassign]

theorem execute_cascade_ok (h : t = none ∨ last ∉ front) :
    ∃ g, execute (cascade (front ++ [last]) e).steps ⟨s.standing, none⟩ = (none, g) ∧ g.type = none ∧
      ∀ y, g.scopes.typeOf? y = if y = last.text then some t else s.scopes.typeOf? y := by
  have huntyped : ∀ x ∈ front.reverse, (settled s last t).scopes.typeOf? x.text = some none := by
    intro x hx
    have hfront : x ∈ front := List.mem_reverse.mp hx
    exact typeOf?_settled_front hfree hfront (h.imp_right fun hlast hx => hlast (hx ▸ hfront))
  obtain ⟨g, hexecute, hg, htypes⟩ := execute_idle rfl huntyped
  refine ⟨g, ?_, hg, fun y => (htypes y).trans (typeOf?_settled hfree y)⟩
  rw [execute_cascade hfree he, hexecute]

theorem execute_cascade_error {u : Ty} (ht : t = some u) (h : last ∈ front) :
    ∃ g, execute (cascade (front ++ [last]) e).steps ⟨s.standing, none⟩ =
      (some (.cannotAssign none last.text (some u)), g) := by
  -- The variables take their values from the last to the first; the last one has a type when its turn comes again.
  obtain ⟨before, after, hsplit, hbefore⟩ := List.eq_append_cons_of_mem (List.mem_reverse.mpr h)
  have huntyped : ∀ x ∈ before, (settled s last t).scopes.typeOf? x.text = some none := by
    intro x hx
    have hfront : x ∈ front := List.mem_reverse.mp (hsplit ▸ List.mem_append_left _ hx)
    exact typeOf?_settled_front hfree hfront (.inr fun hlast => hbefore (hlast ▸ hx))
  obtain ⟨g, hexecute, hg, htypes⟩ := execute_idle rfl huntyped
  have htyped : g.scopes.typeOf? last.text = some (some u) := by
    rw [htypes, typeOf?_settled hfree, if_pos rfl, ht]
  refine ⟨g, ?_⟩
  rw [execute_cascade hfree he, hsplit, List.map_append, execute_append, hexecute]
  simp only [List.map_cons, execute, run_assign_typed htyped hg]

theorem visit_cascade_ok (h : t = none ∨ last ∉ front) :
    ∃ s', ((cascade (front ++ [last]) e).tree.visit .alone).runFrom s = (.ok (.type none), s') ∧
      ∀ y, s'.scopes.typeOf? y = if y = last.text then some t else s.scopes.typeOf? y := by
  obtain ⟨g, hexecute, hg, htypes⟩ := execute_cascade_ok hfree he h
  obtain ⟨v, hrun, rfl⟩ := (Assignment.follows _ _).ok g hexecute
  obtain ⟨s', hvisit, hs'⟩ := hrun s rfl
  have hscopes : s'.scopes = g.scopes := congrArg Standing.scopes hs'
  exact ⟨s', hg ▸ hvisit, fun y => hscopes ▸ htypes y⟩

theorem visit_cascade_error {u : Ty} (ht : t = some u) (h : last ∈ front) :
    ∃ s', ((cascade (front ++ [last]) e).tree.visit .alone).runFrom s =
      (.error (.cannotAssign none last.text (some u)), s') := by
  obtain ⟨g, hexecute⟩ := execute_cascade_error hfree he ht h
  obtain ⟨s', hvisit, -⟩ := (Assignment.follows _ _).error _ g hexecute s rfl
  exact ⟨s', hvisit⟩

end Cascade

theorem visit_assign_ok {s s' : AnalysisState} {object : Option (List Tree)} {target : Name} {value : Assignment}
    {v : Value} (h : ((Assignment.assign object target value).tree.visit .alone).runFrom s = (.ok v, s')) :
    v = .type none ∧ ∃ t s₁, (value.tree.visit .alone).runFrom s = (.ok (.type t), s₁) := by
  have hfollows := (Assignment.assign object target value).follows ⟨s.standing, none⟩
  match hexecute : execute (Assignment.assign object target value).steps ⟨s.standing, none⟩ with
  | (some e, g) =>
    obtain ⟨s₁, hrun, -⟩ := hfollows.error e g hexecute s rfl
    cases (Prod.mk.inj (h.symm.trans hrun)).1
  | (none, g) =>
    obtain ⟨w, hw, rfl⟩ := hfollows.ok g hexecute
    obtain ⟨s₁, hrun, -⟩ := hw s rfl
    have htype : g.type = none :=
      Expression.type_of_target (e := .assignment (.assign object target value)) (List.mem_cons_self) hexecute
    refine ⟨(Except.ok.inj (Prod.mk.inj (h.symm.trans hrun)).1).trans (congrArg Value.type htype), ?_⟩
    obtain ⟨g₁, hfront, -⟩ := execute_append_ok hexecute
    obtain ⟨g₂, haim, hvalue⟩ := execute_cons_ok hfront
    cases Step.run_takes haim with
    | aim hfound =>
      obtain ⟨w, hw, rfl⟩ := (value.follows _).ok g₁ hvalue
      obtain ⟨s₂, hvisit, -⟩ := hw s rfl
      exact ⟨g₁.type, s₂, hvisit⟩

/-- An accepted assignment has no type, which is the type of its value exactly if this has none. In a row of assignments
to declared variables without a type, the type of the value goes to the last variable and to no other. The row is
refused if it has a type to give and the last variable stands in it again. -/
theorem assignment_untyped (s : AnalysisState) :
    (∀ tree, Spells (.rule .assignment) [tree] → ∃ a : Assignment, tree = a.tree) ∧
    (∀ object target value v s',
      ((Assignment.assign object target value).tree.visit .alone).runFrom s = (.ok v, s') →
        v = .type none ∧ ∃ t s₁, (value.tree.visit .alone).runFrom s = (.ok (.type t), s₁) ∧ (v = .type t ↔ t = none)) ∧
    ∀ (front : List Name) (last : Name) (e : LogicOr) (t : Option Ty), HasType s (LogicOr.tree e) t →
      (∀ x ∈ front ++ [last], s.scopes.typeOf? x.text = some none) →
      let visit := ((cascade (front ++ [last]) e).tree.visit .alone).runFrom s
      ((∃ v s', visit = (.ok v, s')) ↔ t = none ∨ last ∉ front) ∧
      (∀ u, t = some u → last ∈ front → ∃ s', visit = (.error (.cannotAssign none last.text (some u)), s')) ∧
      ∀ v s', visit = (.ok v, s') →
        (∀ y, s'.scopes.typeOf? y = if y = last.text then some t else s.scopes.typeOf? y) ∧
        ((∀ x ∈ front ++ [last], s'.scopes.typeOf? x.text = some t) ↔ t = none ∨ front = []) := by
  refine ⟨?_, ?_, ?_⟩
  · intro tree htree
    obtain ⟨cs, hcs, hnode⟩ := spells_rule.mp htree
    obtain ⟨a, ha⟩ := exists_assignment cs hcs
    exact ⟨a, (List.cons.inj hnode).1.trans ha.symm⟩
  · intro object target value v s' hvisit
    obtain ⟨rfl, t, s₁, hvalue⟩ := visit_assign_ok hvisit
    refine ⟨rfl, t, s₁, hvalue, ?_⟩
    rw [Value.type.injEq, eq_comm]
  · intro front last e t htype hfree visit
    have he : e.type s.standing = .ok t := (hasType_iff (LogicOr.visit_run s.standing e .alone) t).mp htype
    have hrefused : ∀ u, t = some u → last ∈ front →
        ∃ s', visit = (.error (.cannotAssign none last.text (some u)), s') :=
      fun u ht hlast => visit_cascade_error hfree he ht hlast
    have haccepted : (∃ v s', visit = (.ok v, s')) ↔ t = none ∨ last ∉ front := by
      constructor
      · rintro ⟨v, s', hvisit⟩
        cases t with
        | none => exact .inl rfl
        | some u =>
          refine .inr fun hlast => ?_
          obtain ⟨s₁, herror⟩ := hrefused u rfl hlast
          cases (Prod.mk.inj (hvisit.symm.trans herror)).1
      · intro h
        obtain ⟨s', hvisit, -⟩ := visit_cascade_ok hfree he h
        exact ⟨_, s', hvisit⟩
    refine ⟨haccepted, hrefused, fun v s' hvisit => ?_⟩
    have hcase : t = none ∨ last ∉ front := haccepted.mp ⟨v, s', hvisit⟩
    obtain ⟨s₁, hvisit₁, htypes⟩ := visit_cascade_ok hfree he hcase
    obtain ⟨-, rfl⟩ := Prod.mk.inj (hvisit.symm.trans hvisit₁)
    exact ⟨htypes, forall_typeOf?_iff hfree hcase htypes⟩

namespace Pair

def declaration (x : Name) : Declaration :=
  .variable ⟨x, none⟩

def a : Name :=
  .named "a"

def b : Name :=
  .named "b"

def one : LogicOr :=
  .ofUnary (.call (.primary (.number "1") []))

def program : Program :=
  ⟨[declaration a, declaration b]⟩

def state : AnalysisState :=
  (AnalysisState.start.analyse program.tree).2

end Pair

theorem row_of_two_half_typed :
    (∃ d, parseText .assignment "a = b = 1" = .ok d ∧ d.tree = (cascade [Pair.a, Pair.b] Pair.one).tree) ∧
    HasType Pair.state (LogicOr.tree Pair.one) (some .num) ∧
    ∃ v s', ((cascade [Pair.a, Pair.b] Pair.one).tree.visit .alone).runFrom Pair.state = (.ok v, s') ∧
      s'.scopes.typeOf? "b" = some (some .num) ∧ s'.scopes.typeOf? "a" = some none := by
  have hparse : (parseText .assignment "a = b = 1").toOption.map Derived.tree =
      some (cascade [Pair.a, Pair.b] Pair.one).tree := by
    decide +kernel
  have htype : HasType Pair.state (LogicOr.tree Pair.one) (some .num) :=
    (hasType_iff (LogicOr.visit_run _ Pair.one .alone) _).mpr rfl
  have hfree : ∀ x ∈ [Pair.a] ++ [Pair.b], Pair.state.scopes.typeOf? x.text = some none := by
    simp only [List.singleton_append, List.forall_mem_cons]
    exact ⟨by decide +kernel, by decide +kernel, nofun⟩
  have hother : Pair.b ∉ [Pair.a] := by
    rw [List.mem_singleton]
    exact fun h => absurd (congrArg Name.text h) (by decide)
  obtain ⟨-, -, hrows⟩ := assignment_untyped Pair.state
  obtain ⟨haccepted, -, htypes⟩ := hrows [Pair.a] Pair.b Pair.one (some .num) htype hfree
  obtain ⟨v, s', hvisit⟩ := haccepted.mpr (.inr hother)
  obtain ⟨hall, -⟩ := htypes v s' hvisit
  refine ⟨exists_derived_of_tree hparse, htype, v, s', hvisit, hall "b", ?_⟩
  exact (hall "a").trans (hfree Pair.a List.mem_cons_self)

end Syntax

end CompiScript
