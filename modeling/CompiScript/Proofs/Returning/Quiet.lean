import CompiScript.Proofs.Dependence.Sheltered
import CompiScript.Proofs.Failures.Fits

namespace CompiScript

open Syntax Step

namespace Scopes

theorem left_of_find?_none {s : Scopes} {x : String} (hfree : s.find? x (some .functions) = none) {n : Nat}
    {r : Option Ty} (hr : s.returnsAt n x = some r) : s.sketch.Left n := by
  cases hu : s.tables[n]? with
  | none => simp [returnsAt, note, hu] at hr
  | some u =>
    rw [returnsAt, note_of_table hu, Table.returns] at hr
    obtain ⟨symbol, hsymbol, -⟩ := Option.map_eq_some_iff.mp hr
    refine ⟨?_, ?_⟩
    · rw [← length_tables]
      exact (List.getElem?_eq_some_iff.mp hu).1
    · intro hopen
      rw [tables_eq] at hu
      have hfound : (s.find? x (some .functions)).isSome = true := findIn_isSome_of_number hopen hu hsymbol
      rw [hfree] at hfound
      cases hfound

end Scopes

def Quiet (owners : List String) (steps : List Step) : Prop :=
  ∀ g g' n x r, execute steps g = (none, g') → g.scopes.returnsAt n x = some r →
    (x ∉ owners ∨ g.scopes.sketch.Left n) → g'.scopes.returnsAt n x = some r

section Quiet

variable {owners more : List String} {before after : List Step}

theorem Quiet.append (hbefore : Quiet owners before) (hafter : Quiet owners after) :
    Quiet owners (before ++ after) := by
  intro g g' n x r hrun hr hx
  obtain ⟨g₁, hfirst, hrest⟩ := execute_append_ok hrun
  have hr₁ := hbefore g g₁ n x r hfirst hr hx
  exact hafter g₁ g' n x r hrest hr₁ (hx.imp_right (execute_left hfirst))

theorem Quiet.mono (h : Quiet owners before) (hsub : ∀ x ∈ owners, x ∈ more) : Quiet more before := by
  intro g g' n x r hrun hr hx
  exact h g g' n x r hrun hr (hx.imp_left fun hnot hmem => hnot (hsub x hmem))

theorem quiet_nil : Quiet owners [] := by
  intro g g' n x r hrun hr _
  cases hrun
  exact hr

theorem Quiet.of_nil (h : Quiet [] before) : Quiet owners before :=
  h.mono fun _ hx => nomatch hx

theorem quiet_single (s : Step) (h : ∀ f, s = giveBack (some f) false → f ∈ owners) : Quiet owners [s] := by
  intro g g' n x r hrun hr hx
  obtain ⟨g₁, hs, hend⟩ := execute_cons_ok hrun
  cases hend
  rcases (run_takes hs).returnsAt_cases n x with hsame | ⟨hnone, -⟩ | ⟨hgive, hhome, -, -⟩
  · exact hsame.trans hr
  · rw [hr] at hnone
    cases hnone
  · rcases hx with hnot | hleft
    · exact absurd (h x hgive) hnot
    · exact absurd (homeIn_mem hhome) hleft.2

theorem Quiet.cons {s : Step} (hs : ∀ f, s ≠ giveBack (some f) false) (h : Quiet owners after) :
    Quiet owners (s :: after) :=
  (quiet_single s fun f hf => absurd hf (hs f)).append h

end Quiet

namespace Syntax

theorem quiet_of_isOperation {steps : List Step} (h : ∀ s ∈ steps, s.isOperation = true) : Quiet [] steps := by
  induction steps with
  | nil => exact quiet_nil
  | cons s steps ih =>
    refine Quiet.cons ?_ (ih fun u hu => h u (.tail s hu))
    rintro f rfl
    cases h _ (.head steps)

theorem Expression.quiet (e : Expression) : Quiet [] e.steps :=
  quiet_of_isOperation fun _ hs => e.isOperation_of_mem hs

theorem Expression.quiet_condition (e : Expression) (place : String) {after : List Step} (h : Quiet [] after) :
    Quiet [] (e.steps ++ require place :: after) :=
  e.quiet.append (h.cons (by simp))

theorem VarDecl.quiet (v : VarDecl) : Quiet [] v.steps := by
  obtain ⟨name, value⟩ := v
  cases value with
  | none => exact quiet_nil.cons (by simp)
  | some e => exact (e.quiet.cons (by simp)).append (quiet_nil.cons (by simp))

theorem headSteps_quiet (es : List Expression) : Quiet [] (headSteps es) := by
  match es with
  | [] => exact quiet_nil
  | [c] => exact c.quiet_condition _ quiet_nil
  | c :: u :: _ => exact c.quiet_condition _ u.quiet

theorem ForHead.quiet (h : ForHead) : Quiet [] h.steps := by
  obtain ⟨init, condition, update⟩ := h
  refine Quiet.append ?_ (headSteps_quiet _)
  cases init with
  | «variable» v => exact v.quiet
  | expression e => exact e.quiet
  | nothing => exact quiet_nil

theorem Params.quiet (f : String) (params : Option Params) : Quiet [] (Params.steps f params) := by
  cases params with
  | none => exact quiet_nil
  | some ps =>
    refine Quiet.append ?_ (quiet_nil.cons (by simp))
    induction ps.names with
    | nil => exact quiet_nil
    | cons x names ih => exact ih.cons (by simp)

theorem quiet_exits : Quiet [] [exit, exit, unbind] :=
  ((quiet_nil.cons (by simp)).cons (by simp)).cons (by simp)

theorem Place.quiet_opening (name : Name) (params : Option Params) : Quiet [] (opening name params) :=
  (((Params.quiet name.text params).cons (by simp)).cons (by simp)).append (quiet_nil.cons (by simp))

theorem Place.function_steps (name : Name) (params : Option Params) (body : List Declaration) (owner : Option String) :
    (Declaration.function name params body).steps owner =
      opening name params ++ (Declaration.stepsAll (some name.text) body ++ [exit, exit, unbind]) := by
  simp [Declaration.steps, opening]

theorem Declaration.quiet_function {name : Name} {params : Option Params} {body : List Declaration}
    (hbody : Quiet [name.text] (Declaration.stepsAll (some name.text) body)) (owner : Option String) :
    Quiet [] ((Declaration.function name params body).steps owner) := by
  intro g g' n x r hrun hr _
  rw [Place.function_steps] at hrun
  obtain ⟨g₁, hopening, hrest⟩ := execute_append_ok hrun
  have hr₁ := Place.quiet_opening name params g g₁ n x r hopening hr (.inl (List.not_mem_nil))
  refine hbody.append quiet_exits.of_nil g₁ g' n x r hrest hr₁ ?_
  by_cases hx : x = name.text
  · -- The name is free when the function is declared, so an entry that has it already is out of reach.
    subst hx
    obtain ⟨g₀, hdeclare, -⟩ := execute_cons_ok hopening
    cases run_takes hdeclare with
    | declare hfree hnew => exact .inr (execute_left hopening (Scopes.left_of_find?_none hfree hr))
  · exact .inl fun hmem => hx (List.mem_singleton.mp hmem)

mutual

theorem Statement.quiet (scope owner : Option String) : ∀ s : Statement, Quiet owner.toList (s.steps scope owner)
  | .expression e => e.quiet.of_nil
  | .forLoop head body =>
    (((head.quiet.cons (by simp)).append ((body.quiet none none).cons (by simp))).append
      ((quiet_nil.cons (by simp)).cons (by simp))).of_nil
  | .ifThen condition yes => (condition.quiet_condition _ (yes.quiet _ none)).of_nil
  | .ifElse condition yes no => ((condition.quiet_condition _ (yes.quiet _ none)).append (no.quiet _ none)).of_nil
  | .print e => ((e.quiet.cons (by simp)).append (quiet_nil.cons (by simp))).of_nil
  | .giveBack none => quiet_nil.cons (by simp)
  | .giveBack (some e) => by
    refine e.quiet.of_nil.append (quiet_single _ ?_)
    intro f hf
    cases hf
    exact .head _
  | .whileLoop condition body => (condition.quiet_condition _ (body.quiet _ none)).of_nil
  | .block body => (((Declaration.quietAll none body).cons (by simp)).append (quiet_nil.cons (by simp))).of_nil

theorem Declaration.quiet (owner : Option String) : ∀ d : Declaration, Quiet owner.toList (d.steps owner)
  | .classType _ => quiet_nil
  | .function name _ body => (Declaration.quiet_function (Declaration.quietAll (some name.text) body) owner).of_nil
  | .variable v => v.quiet.of_nil
  | .statement s => s.quiet none owner

theorem Declaration.quietAll (owner : Option String) : ∀ ds : List Declaration,
    Quiet owner.toList (Declaration.stepsAll owner ds)
  | [] => quiet_nil
  | d :: ds => (d.quiet owner).append (Declaration.quietAll owner ds)

end

theorem Enclosure.map_name_pass (declares : Bool) (around : List Enclosure) :
    (Enclosure.pass declares around).map Enclosure.name = around.map Enclosure.name := by
  cases around <;> rfl

theorem Place.Within.quiet_after {pl q : Place} (h : pl.Within q)
    (hpl : Quiet (pl.around.map Enclosure.name) pl.after) : Quiet (q.around.map Enclosure.name) q.after := by
  have hinner : ∀ part scope front declares back, Quiet [] back →
      Quiet ((pl.inner part scope front declares back).around.map Enclosure.name)
        (pl.inner part scope front declares back).after := by
    intro part scope front declares back hback
    rw [inner, Enclosure.map_name_pass]
    exact hback.of_nil.append hpl
  cases h with
  | @block ds es d hpart => exact hinner _ _ _ _ _ ((Declaration.quietAll none es).append (quiet_nil.cons (by simp)))
  | forBody hpart => exact hinner _ _ _ _ _ ((quiet_nil.cons (by simp)).cons (by simp))
  | ifThen hpart => exact hinner _ _ _ _ _ quiet_nil
  | @ifYes condition yes no hpart => exact hinner _ _ _ _ _ (no.quiet _ none)
  | ifNo hpart => exact hinner _ _ _ _ _ quiet_nil
  | whileBody hpart => exact hinner _ _ _ _ _ quiet_nil

theorem Place.InBody.quiet_after {pl q : Place} (h : pl.InBody q)
    (hpl : Quiet (pl.around.map Enclosure.name) pl.after) : Quiet (q.around.map Enclosure.name) q.after := by
  obtain @⟨name, params, ds, es, d, hpart⟩ := h
  have hrest : Quiet [name.text] (Declaration.stepsAll (some name.text) es ++ [exit, exit, unbind]) :=
    (Declaration.quietAll (some name.text) es).append quiet_exits.of_nil
  refine Quiet.append (hrest.mono ?_) (hpl.mono ?_)
  · intro x hx
    rw [List.mem_singleton.mp hx]
    exact .head _
  · exact fun x hx => .tail _ hx

theorem Program.Contains.quiet_after {p : Program} {pl : Place} (h : p.Contains pl) :
    Quiet (pl.around.map Enclosure.name) pl.after := by
  induction h with
  | top hbody => exact Declaration.quietAll none _
  | within _ hq ih => exact hq.quiet_after ih
  | inBody _ hq ih => exact hq.quiet_after ih

theorem Place.Within.has_before {pl q : Place} (h : pl.Within q) {k : Sketch} {x : String} {c : Category}
    (hx : (sketchAll pl.before k).Has x c) : (sketchAll q.before k).Has x c := by
  have hinner : ∀ part scope front declares back, (∀ k' : Sketch, k'.Has x c → (sketchAll front k').Has x c) →
      (sketchAll (pl.inner part scope front declares back).before k).Has x c := by
    intro part scope front declares back hfront
    rw [inner, sketchAll_append]
    exact hfront _ hx
  have hcondition : ∀ (e : Expression) place (k' : Sketch), sketchAll (e.steps ++ [require place]) k' = k' := by
    intro e place k'
    rw [sketchAll_append, e.sketchAll_steps]
    rfl
  cases h with
  | block hpart =>
    refine hinner _ _ _ _ _ fun k' hk' => ?_
    rw [sketchAll, Declaration.sketchAll_stepsAll]
    exact Sketch.has_extend _ _ (Sketch.has_enter _ hk')
  | @forBody head body hpart =>
    refine hinner _ _ _ _ _ fun k' hk' => ?_
    simp only [sketchAll_append, sketchAll, Step.sketch, head.sketchAll_steps]
    exact Sketch.has_enter _ (Sketch.has_extend _ _ (Sketch.has_enter _ hk'))
  | ifThen hpart => exact hinner _ _ _ _ _ fun k' hk' => by rwa [hcondition]
  | ifYes hpart => exact hinner _ _ _ _ _ fun k' hk' => by rwa [hcondition]
  | @ifNo condition yes no hpart =>
    refine hinner _ _ _ _ _ fun k' hk' => ?_
    rw [sketchAll_append, condition.sketchAll_steps, sketchAll, yes.sketchAll_steps]
    exact Sketch.has_extend _ _ hk'
  | whileBody hpart => exact hinner _ _ _ _ _ fun k' hk' => by rwa [hcondition]

theorem Place.sketchAll_opening (name : Name) (params : Option Params) (k : Sketch) :
    sketchAll (opening name params) k =
      (((k.extend [(name.text, .functions)] []).enter ("Function '" ++ name.text ++ "'")).extend (Params.keys params)
        []).enter ("Function " ++ name.text ++ " Body") := by
  simp only [opening, sketchAll_append, sketchAll, Step.sketch, Params.sketchAll_steps]
  rfl

theorem Program.Contains.has_around {p : Program} {pl : Place} (h : p.Contains pl) :
    ∀ e ∈ pl.around, (sketchAll pl.before .start).Has e.name .functions := by
  induction h with
  | top hbody => exact fun e he => nomatch he
  | @within pl q _ hq ih =>
    intro e he
    apply hq.has_before
    have hname : e.name ∈ pl.around.map Enclosure.name := by
      obtain ⟨-, b, haround, -⟩ := hq.declares
      rw [← Enclosure.map_name_pass b, ← haround]
      exact List.mem_map_of_mem he
    obtain ⟨e', he', heq⟩ := List.mem_map.mp hname
    rw [← heq]
    exact ih e' he'
  | inBody _ hq ih =>
    obtain @⟨name, params, ds, es, d, hpart⟩ := hq
    intro e he
    rw [Place.member, sketchAll_append, sketchAll_append, Declaration.sketchAll_stepsAll, Place.sketchAll_opening]
    apply Sketch.has_extend
    apply Sketch.has_enter
    apply Sketch.has_extend
    apply Sketch.has_enter
    rcases List.mem_cons.mp he with rfl | hmem
    · exact Sketch.has_extend_self _ _ _
    · exact Sketch.has_extend _ _ (ih e hmem)

end Syntax

end CompiScript
