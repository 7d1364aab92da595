import CompiScript.Proofs.Effects.Proper
import CompiScript.Proofs.Returning.Quiet

namespace CompiScript

open Syntax Step

theorem execute_returnsAt {steps : List Step} {g g' : Stage} (h : execute steps g = (none, g')) {n : Nat} {x : String}
    {r : Option Ty} (hr : g.scopes.returnsAt n x = some r) (hknown : r ≠ some Ty.nil) :
    g'.scopes.returnsAt n x = some r := by
  refine execute_induction (P := fun g => g.scopes.returnsAt n x = some r) ?_ h hr
  intro s g g' hs hr
  rcases (run_takes hs).returnsAt_cases n x with hsame | ⟨hnone, -⟩ | ⟨-, -, hnil, -⟩
  · exact hsame.trans hr
  · rw [hr] at hnone
    cases hnone
  · rw [hr] at hnil
    exact absurd (Option.some.inj hnil) hknown

theorem Step.Takes.returnsAt_giveBack {g g' : Stage} {f : String} (h : (giveBack (some f) false).Takes g g')
    (hflag : g.inReturn = false) (hg : g.Proper) {n : Nat} (hhome : g.scopes.home? f .functions = some n) :
    g'.scopes.returnsAt n f = some g.type := by
  cases h with
  | returnUnchecked hset =>
    rw [hflag] at hset
    cases hset
  | returnFirst hoff hold => rw [Scopes.returnsAt_setReturns, if_pos ⟨hhome, rfl⟩]
  | returnAgain hoff hold hshow =>
    have hr := Scopes.returnsAt_home hhome
    rw [hr, Ty.eq_of_show? (hg.returns n f _ hr) hg.type hshow]

namespace Syntax

def Place.ReturnsValue (pl : Place) (t : Option Ty) : Prop :=
  ∃ e g, pl.part = .statement (.giveBack (some e)) ∧ execute (pl.before ++ e.steps) .start = (none, g) ∧ g.type = t

def Place.Returns (pl : Place) (t : Option Ty) : Prop :=
  pl.part = .statement (.giveBack none) ∧ t = some Ty.nil ∨ pl.ReturnsValue t

theorem Place.execute_opening {name : Name} {params : Option Params} {g g₁ : Stage}
    (h : execute (opening name params) g = (none, g₁)) :
    g.scopes.find? name.text (some .functions) = none ∧ g.scopes.sketch.here ∈ g₁.scopes.sketch.opened ∧
      g₁.scopes.home? name.text .functions = some g.scopes.sketch.here ∧
      g₁.scopes.returnsAt g.scopes.sketch.here name.text = some (some Ty.nil) := by
  have hopen : g.scopes.sketch.here ∈ g₁.scopes.sketch.opened := by
    rw [execute_sketch h, sketchAll_opening]
    -- The two scopes that are opened, then the one in which the function is declared.
    exact .tail _ (.tail _ (.head _))
  obtain ⟨g₀, hdeclare, hrest⟩ := execute_cons_ok h
  cases run_takes hdeclare with
  | declare hfree hnew =>
    refine ⟨hfree, hopen, ?_, ?_⟩
    · exact execute_home hrest (by decide) (g.scopes.home?_declared .function name.text) hopen
    · have hquiet : Quiet [] (enter ("Function '" ++ name.text ++ "'") ::
          Params.steps name.text params ++ [enter ("Function " ++ name.text ++ " Body")]) :=
        ((Params.quiet name.text params).cons (by simp)).append (quiet_nil.cons (by simp))
      refine hquiet _ g₁ _ _ _ hrest ?_ (.inl List.not_mem_nil)
      rw [Scopes.returnsAt_declared hnew, if_pos ⟨rfl, rfl⟩]

theorem Declaration.quiet_or_giveBack (owner : Option String) (d : Declaration) :
    (∃ e, d = .statement (.giveBack (some e))) ∨ Quiet [] (d.steps owner) := by
  -- Only a `return` has steps that depend on the function in whose body it stands.
  cases d with
  | classType parts => exact .inr quiet_nil
  | function name params body => exact .inr ((Declaration.function name params body).quiet none)
  | «variable» v => exact .inr v.quiet
  | statement s =>
    cases s with
    | giveBack value =>
      cases value with
      | none => exact .inr (quiet_nil.cons (by simp))
      | some e => exact .inl ⟨e, rfl⟩
    | expression e => exact .inr e.quiet
    | forLoop head body => exact .inr ((Statement.forLoop head body).quiet none none)
    | ifThen condition yes => exact .inr ((Statement.ifThen condition yes).quiet none none)
    | ifElse condition yes no => exact .inr ((Statement.ifElse condition yes no).quiet none none)
    | print e => exact .inr ((Statement.print e).quiet none none)
    | whileLoop condition body => exact .inr ((Statement.whileLoop condition body).quiet none none)
    | block body => exact .inr ((Statement.block body).quiet none none)

/-- A function of an accepted program that has no parameters and is in no function with parameters; the
analysis meets it on the one stage and ends on the other. -/
structure Program.Plain (p : Program) (pl : Place) (name : Name) (body : List Declaration) (g gEnd : Stage) : Prop where
  contained : p.Contains pl
  part : pl.part = .function name none body
  around : ∀ e ∈ pl.around, e.params = none
  met : execute pl.before .start = (none, g)
  accepted : execute p.steps .start = (none, gEnd)

namespace Program.Plain

variable {p : Program} {pl q : Place} {name : Name} {body : List Declaration} {g gEnd : Stage}

theorem flag_around (h : p.Plain pl name body g gEnd) (hq : pl.Belongs q) : Enclosure.flag q.around = false := by
  apply Enclosure.flag_eq_false
  induction hq with
  | body hq =>
    obtain @⟨name', params, ds, es, d, hpart⟩ := hq
    intro e he
    have hparams : params = none := by
      rw [h.part] at hpart
      cases hpart
      rfl
    rcases List.mem_cons.mp he with rfl | hmem
    · exact hparams
    · exact h.around e hmem
  | within _ hr ih =>
    obtain ⟨-, b, haround, -⟩ := hr.declares
    intro e he
    rw [haround] at he
    obtain ⟨e', he', hparams⟩ := Enclosure.mem_pass he
    rw [← hparams]
    exact ih e' he'

theorem passes (h : p.Plain pl name body g gEnd) (hq : pl.Belongs q) :
    ∃ g₁ g₂, execute q.before .start = (none, g₁) ∧ execute q.steps g₁ = (none, g₂) ∧
      execute q.after g₂ = (none, gEnd) := by
  have hall := h.accepted
  rw [(h.contained.of_belongs hq).steps_eq] at hall
  obtain ⟨g₂, hfront, hafter⟩ := execute_append_ok hall
  obtain ⟨g₁, hbefore, hsteps⟩ := execute_append_ok hfront
  exact ⟨g₁, g₂, hbefore, hsteps, hafter⟩

theorem inReturn_value (h : p.Plain pl name body g gEnd) (hq : pl.Belongs q) {e : Expression}
    (hreturn : q.part = .statement (.giveBack (some e))) {g₁ : Stage}
    (hvalue : execute (q.before ++ e.steps) .start = (none, g₁)) : g₁.inReturn = false := by
  have hown : q.ownSteps = e.steps ++ [giveBack q.owner false] := by
    rw [Place.ownSteps, hreturn]
    rfl
  rw [(h.contained.of_belongs hq).inReturn_eq ⟨e.steps, [giveBack q.owner false], hown, hvalue⟩]
  exact h.flag_around hq

theorem inBody_of_giveBack (h : p.Plain pl name body g gEnd) (hq : pl.Belongs q) {value : Option Expression}
    (hreturn : q.part = .statement (.giveBack value)) : pl.InBody q := by
  obtain ⟨g₁, g₂, hbefore, hsteps, -⟩ := h.passes hq
  have hown : q.steps = returnSteps q.owner value := by
    rw [Place.steps, hreturn]
    rfl
  cases id hq with
  | body hq => exact hq
  | within hr hwithin =>
    have howner : q.owner = none := by
      cases hwithin <;> rfl
    rw [hown, howner] at hsteps
    cases value with
    | none =>
      obtain ⟨g₃, hrefused, -⟩ := execute_cons_ok hsteps
      cases hrefused
    | some e =>
      obtain ⟨g₃, hvalue, hlast⟩ := execute_append_ok hsteps
      obtain ⟨g₄, hgive, -⟩ := execute_cons_ok hlast
      have hflag := h.inReturn_value hq hreturn (execute_trans hbefore hvalue)
      cases run_takes hgive with
      | returnUnchecked hset =>
        rw [hflag] at hset
        cases hset

theorem returnsAt_behind (h : p.Plain pl name body g gEnd) (hq : pl.Belongs q) {t : Option Ty}
    (hreturn : q.ReturnsValue t) :
    ∃ g₂, execute (q.before ++ q.steps) .start = (none, g₂) ∧ execute q.after g₂ = (none, gEnd) ∧
      g₂.scopes.returnsAt g.scopes.sketch.here name.text = some t := by
  obtain ⟨e, gv, hpart, hvalue, rfl⟩ := hreturn
  obtain ⟨g₁, g₂, hbefore, hsteps, hafter⟩ := h.passes hq
  refine ⟨g₂, execute_trans hbefore hsteps, hafter, ?_⟩
  have hflag := h.inReturn_value hq hpart hvalue
  have hown : q.steps = returnSteps q.owner (some e) := by
    rw [Place.steps, hpart]
    rfl
  obtain @⟨name', params, ds, es, d, hfunction⟩ := h.inBody_of_giveBack hq hpart
  rw [h.part] at hfunction
  cases hfunction
  rw [hown] at hsteps
  have hvalue' := execute_rest hvalue hbefore
  obtain ⟨g₃, hgive, hend⟩ := execute_cons_ok (execute_rest hsteps hvalue')
  cases hend
  -- From the body's beginning to the value, the scope of the declaration stays open.
  obtain ⟨g₀, hfront, hds⟩ := execute_append_ok hbefore
  obtain ⟨-, hopen, hhome, -⟩ := Place.execute_opening (execute_rest hfront h.met)
  have hinside := execute_trans hds hvalue'
  have hstill : g.scopes.sketch.here ∈ gv.scopes.sketch.opened := by
    rw [execute_sketch hinside, sketchAll_append, Declaration.sketchAll_stepsAll, e.sketchAll_steps]
    exact hopen
  have hhere := execute_home hinside (by decide) hhome hstill
  exact (run_takes hgive).returnsAt_giveBack hflag (execute_proper hvalue) hhere

theorem exists_returnsAt_body (h : p.Plain pl name body g gEnd) (es ds : List Declaration) (hbody : body = ds ++ es)
    {g₁ g₂ : Stage}
    (hbefore : execute (pl.before ++ Place.opening name none ++ Declaration.stepsAll (some name.text) ds) .start = (none, g₁))
    (hes : execute (Declaration.stepsAll (some name.text) es) g₁ = (none, g₂)) {r : Option Ty}
    (hr : g₁.scopes.returnsAt g.scopes.sketch.here name.text = some r)
    (hgiven : r = some Ty.nil ∨ ∃ q, pl.InBody q ∧ q.ReturnsValue r) :
    ∃ t, g₂.scopes.returnsAt g.scopes.sketch.here name.text = some t ∧
      (t = some Ty.nil ∨ ∃ q, pl.InBody q ∧ q.ReturnsValue t) := by
  induction es generalizing ds g₁ r with
  | nil =>
    cases hes
    exact ⟨r, hr, hgiven⟩
  | cons d es ih =>
    obtain ⟨gd, hd, hrest⟩ := execute_append_ok hes
    have hbody' : body = (ds ++ [d]) ++ es := by
      rw [hbody, List.append_assoc]
      rfl
    have hfront : execute (pl.before ++ Place.opening name none ++ Declaration.stepsAll (some name.text) (ds ++ [d]))
        .start = (none, gd) := by
      rw [Declaration.stepsAll_append, ← List.append_assoc]
      apply execute_trans hbefore
      rw [Declaration.stepsAll, Declaration.stepsAll, List.append_nil]
      exact hd
    rcases Declaration.quiet_or_giveBack (some name.text) d with ⟨e, rfl⟩ | hquiet
    · have hq : pl.InBody (pl.member name none ds (.statement (.giveBack (some e))) es) :=
        ⟨by rw [h.part, hbody]⟩
      obtain ⟨gv, hvalue, -⟩ := execute_append_ok hd
      have hreturn : (pl.member name none ds (.statement (.giveBack (some e))) es).ReturnsValue gv.type :=
        ⟨e, gv, rfl, execute_trans hbefore hvalue, rfl⟩
      obtain ⟨g', hall, -, hr'⟩ := h.returnsAt_behind (.body hq) hreturn
      obtain rfl : g' = gd := congrArg Prod.snd (hall.symm.trans (execute_trans hbefore hd))
      exact ih (ds ++ [_]) hbody' hfront hrest hr' (.inr ⟨_, hq, hreturn⟩)
    · have hr' := hquiet g₁ gd _ _ r hd hr (.inl List.not_mem_nil)
      exact ih (ds ++ [d]) hbody' hfront hrest hr' hgiven

theorem name_not_around (h : p.Plain pl name body g gEnd)
    (hfree : g.scopes.find? name.text (some .functions) = none) : name.text ∉ pl.around.map Enclosure.name := by
  intro hmem
  obtain ⟨e, he, hname⟩ := List.mem_map.mp hmem
  have hhas := h.contained.has_around e he
  have hdistinct : g.scopes.sketch.Distinct := execute_distinct h.met ⟨⟨List.nodup_nil, trivial⟩, trivial⟩
  have hsketch : sketchAll pl.before .start = g.scopes.sketch := (execute_sketch h.met).symm
  rw [hsketch, hname] at hhas
  have hfound := Scopes.find?_of_has (by decide) hdistinct hhas
  rw [hfree] at hfound
  cases hfound

theorem exists_returnsAt (h : p.Plain pl name body g gEnd) :
    ∃ t, gEnd.scopes.returnsAt g.scopes.sketch.here name.text = some t ∧
      (t = some Ty.nil ∨ ∃ q, pl.InBody q ∧ q.ReturnsValue t) := by
  have hall := h.accepted
  have hsteps : pl.steps = Place.opening name none ++
      (Declaration.stepsAll (some name.text) body ++ [exit, exit, unbind]) := by
    rw [← Place.function_steps name none body pl.owner, Place.steps, h.part]
  rw [h.contained.steps_eq, hsteps] at hall
  obtain ⟨g₃, hfront, hafter⟩ := execute_append_ok hall
  obtain ⟨g₁, hopening, hrest⟩ := execute_append_ok (execute_rest hfront h.met)
  obtain ⟨g₂, hbody, hexits⟩ := execute_append_ok hrest
  obtain ⟨hfree, -, -, hnil⟩ := Place.execute_opening hopening
  have hbegin : execute (pl.before ++ Place.opening name none ++ Declaration.stepsAll (some name.text) []) .start =
      (none, g₁) := by
    rw [Declaration.stepsAll, List.append_nil]
    exact execute_trans h.met hopening
  obtain ⟨t, ht, hgiven⟩ := h.exists_returnsAt_body body [] rfl hbegin hbody hnil (.inl rfl)
  have ht₃ := quiet_exits g₂ g₃ _ _ t hexits ht (.inl List.not_mem_nil)
  exact ⟨t, h.contained.quiet_after g₃ gEnd _ _ t hafter ht₃ (.inl (h.name_not_around hfree)), hgiven⟩

theorem returnsValue_cases (h : p.Plain pl name body g gEnd) {t : Option Ty}
    (ht : gEnd.scopes.returnsAt g.scopes.sketch.here name.text = some t) (hq : pl.Belongs q) {u : Option Ty}
    (hu : q.ReturnsValue u) : u = t ∨ u = some Ty.nil := by
  by_cases hnil : u = some Ty.nil
  · exact .inr hnil
  · obtain ⟨g₂, -, hafter, hr⟩ := h.returnsAt_behind hq hu
    exact .inl (Option.some.inj ((execute_returnsAt hafter hr hnil).symm.trans ht))

theorem returnsValue_later (h : p.Plain pl name body g gEnd) {r : Place} (hq : pl.Belongs q) (hr : pl.Belongs r)
    {between : List Step} (hlater : r.before = q.before ++ q.steps ++ between) {u w : Option Ty}
    (hu : q.ReturnsValue u) (hknown : u ≠ some Ty.nil) (hw : r.ReturnsValue w) : w = u := by
  obtain ⟨g₂, hqrun, -, hru⟩ := h.returnsAt_behind hq hu
  obtain ⟨g₄, hrrun, -, hrw⟩ := h.returnsAt_behind hr hw
  rw [hlater, List.append_assoc] at hrrun
  have hrest := execute_rest hrrun hqrun
  exact Option.some.inj (hrw.symm.trans (execute_returnsAt hrest hru hknown))

theorem exists_returns (h : p.Plain pl name body g gEnd) (hq : pl.Belongs q) {value : Option Expression}
    (hreturn : q.part = .statement (.giveBack value)) : ∃ u, q.Returns u := by
  cases value with
  | none => exact ⟨some Ty.nil, .inl ⟨hreturn, rfl⟩⟩
  | some e =>
    obtain ⟨g₁, g₂, hbefore, hsteps, -⟩ := h.passes hq
    rw [Place.steps, hreturn] at hsteps
    obtain ⟨gv, hvalue, -⟩ := execute_append_ok hsteps
    exact ⟨gv.type, .inr ⟨e, gv, hreturn, execute_trans hbefore hvalue, rfl⟩⟩

end Program.Plain

end Syntax

end CompiScript
