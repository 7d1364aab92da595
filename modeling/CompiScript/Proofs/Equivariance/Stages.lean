import CompiScript.Proofs.Equivariance.Types

namespace CompiScript

open Syntax Step
variable {I : String → Prop} {ρ : Renaming I}

structure Stage.Renamed (ρ : Renaming I) (g g' : Stage) : Prop where
  inPrint : g'.inPrint = g.inPrint
  inReturn : g'.inReturn = g.inReturn
  type : g'.type = g.type
  scopes : g.scopes.Renamed ρ g'.scopes

namespace Stage.Renamed

variable {g g' : Stage} {x : String}

theorem declareIn (h : g.Renamed ρ g') (hx : I x) (what : Declared) :
    Agree ρ.apply (Stage.Renamed ρ) (Step.declareIn g what x) (Step.declareIn g' what (ρ.apply x)) := by
  have hlookup : (g'.scopes.current.table.lookup (ρ.apply x)).isSome =
      (g.scopes.current.table.lookup x).isSome := by
    rw [h.scopes.current.table, Table.lookup_rename h.scopes.current.keys hx, Option.isSome_map]
  rw [declareIn_eq, declareIn_eq, h.scopes.find hx, Option.isSome_map, hlookup]
  split
  · exact .error (.alreadyDeclared what x)
  · split
    · exact .error (.nameless rfl)
    · exact .ok ⟨h.inPrint, h.inReturn, h.type, h.scopes.declared hx what⟩

theorem assignIn (h : g.Renamed ρ g') (hx : I x) :
    Agree ρ.apply (Stage.Renamed ρ) (Step.assignIn g x) (Step.assignIn g' (ρ.apply x)) := by
  have hold : (g'.scopes.find? (ρ.apply x) (some .variables)).bind Symbol.type? =
      (g.scopes.find? x (some .variables)).bind Symbol.type? := by
    rw [h.scopes.find hx, Option.bind_map]
    rfl
  rw [Step.assignIn, Step.assignIn, hold, h.type]
  split
  · exact .ok ⟨h.inPrint, h.inReturn, rfl, h.scopes.setType hx g.type⟩
  · split
    · exact .error (.cannotAssign _ x _)
    · exact .ok ⟨h.inPrint, h.inReturn, rfl, h.scopes⟩

theorem returnIn (h : g.Renamed ρ g') {owner : Option String} (howner : ∀ f, owner = some f → I f) :
    Agree ρ.apply (Stage.Renamed ρ) (Step.returnIn g owner) (Step.returnIn g' (owner.map ρ.apply)) := by
  cases owner with
  | none => exact .error (.nameless rfl)
  | some f =>
    have hf : I f := howner f rfl
    have hold : (g'.scopes.find? (ρ.apply f) (some .functions)).bind Symbol.returns? =
        (g.scopes.find? f (some .functions)).bind Symbol.returns? := by
      rw [h.scopes.find hf, Option.bind_map]
      exact Option.bind_congr fun s _ => s.returns?_rename ρ.apply
    simp only [Option.map_some, Step.returnIn, hold, h.type]
    split
    · exact .ok ⟨h.inPrint, h.inReturn, rfl, h.scopes.setReturns hf g.type⟩
    · split
      · exact .error (.cannotReturn _ f _)
      · exact .ok h

theorem giveBack (h : g.Renamed ρ g') {owner : Option String} (howner : ∀ f, owner = some f → I f) (bare : Bool) :
    Agree ρ.apply (Stage.Renamed ρ) ((Step.giveBack owner bare).run g)
      ((Step.giveBack (owner.map ρ.apply) bare).run g') := by
  cases bare with
  | true =>
    simp only [Step.run, Option.isNone_map]
    split
    · exact .error (.nameless rfl)
    · exact .ok h
  | false =>
    simp only [Step.run, h.inReturn]
    split
    · exact .ok h
    · exact h.returnIn howner

theorem run {s s' : Step} (h : g.Renamed ρ g') (hs : Step.Renamed ρ s s') (hwithin : s.Within I) :
    Agree ρ.apply (Stage.Renamed ρ) (s.run g) (s'.run g') := by
  cases hs with
  | enter htitle => exact .ok ⟨h.inPrint, h.inReturn, h.type, h.scopes.enter htitle⟩
  | exit => exact .ok ⟨h.inPrint, h.inReturn, h.type, h.scopes.exit⟩
  | declare what x =>
    rw [ρ.total_eq hwithin]
    exact h.declareIn hwithin what
  | bind f keys =>
    have hkeys : keys.map ρ.total = keys.map ρ.apply := List.map_congr_left fun x hx => ρ.total_eq (hwithin.2 x hx)
    rw [ρ.total_eq hwithin.1, hkeys]
    exact .ok ⟨h.inPrint, rfl, h.type, h.scopes.setParams hwithin.1 keys⟩
  | unbind => exact .ok ⟨h.inPrint, rfl, h.type, h.scopes⟩
  | beginPrint => exact .ok ⟨rfl, h.inReturn, h.type, h.scopes⟩
  | endPrint => exact .ok ⟨rfl, h.inReturn, h.type, h.scopes⟩
  | aim x =>
    simp only [Step.run, ρ.total_eq hwithin, h.scopes.find hwithin, Option.isNone_map]
    split
    · have hcurrent := h.scopes.current
      rw [Frame.describe, Frame.describe, hcurrent.level, hcurrent.table, Table.names_rename]
      exact .error (.undeclaredTarget x hcurrent.name _ _)
    · exact .ok h
  | weigh e =>
    refine (LogicOr.type_rename h.inPrint h.inReturn h.scopes hwithin).map ?_
    rintro t _ rfl
    exact ⟨h.inPrint, h.inReturn, rfl, h.scopes⟩
  | assign x =>
    rw [ρ.total_eq hwithin]
    exact h.assignIn hwithin
  | initialise x =>
    simp only [Step.run, ρ.total_eq hwithin, h.type]
    exact .ok ⟨h.inPrint, h.inReturn, rfl, h.scopes.setType hwithin g.type⟩
  | require place =>
    simp only [Step.run, Operand.checkBoolean, h.type]
    split
    · exact .ok h
    · exact .error (.nameless rfl)
  | giveBack owner bare =>
    have howner : owner.map ρ.total = owner.map ρ.apply := Option.map_congr fun f hf => ρ.total_eq (hwithin f hf)
    rw [howner]
    exact h.giveBack hwithin bare

theorem runs {steps steps' : List Step} (hsteps : StepsRenamed ρ steps steps') (hconfined : Confined I steps)
    (h : g.Renamed ρ g') :
    Option.Rel (AnalysisError.Renamed ρ.apply) (execute steps g).1 (execute steps' g').1 ∧
      (execute steps g).2.Renamed ρ (execute steps' g').2 := by
  -- The steps go in pairs, so the first refusal comes at the same place.
  induction hsteps generalizing g g' with
  | nil => exact ⟨.none, h⟩
  | @cons s s' steps steps' hs hrest ih =>
    have hrun := h.run hs (hconfined s (.head _))
    simp only [execute]
    generalize s.run g = x, s'.run g' = x' at hrun
    cases hrun with
    | ok hnext => exact ih (fun t ht => hconfined t (.tail _ ht)) hnext
    | error herror => exact ⟨.some herror, h⟩

theorem start : Stage.start.Renamed ρ .start :=
  ⟨rfl, rfl, rfl, rfl, .cons ⟨.fixed (by decide), rfl, rfl, .nil, nofun⟩ .nil⟩

end Stage.Renamed

theorem AnalysisState.outcome_cases (s : AnalysisState) (t : Tree) :
    (∃ v s', s.analyse t = (.ok v, s') ∧ s.outcome t = (none, s'.standing)) ∨
      ∃ e s', s.analyse t = (.error e, s') ∧ s.outcome t = (some e, s'.standing) := by
  rw [outcome]
  rcases s.analyse t with ⟨e | v, s'⟩
  · exact .inr ⟨e, s', rfl, rfl⟩
  · exact .inl ⟨v, s', rfl, rfl⟩

theorem Syntax.Program.outcome_rename (p : Program) (h : p.tree.Within I) :
    Option.Rel (AnalysisError.Renamed ρ.apply) (AnalysisState.start.outcome p.tree).1
        (AnalysisState.start.outcome (p.tree.rename ρ.apply)).1 ∧
      (AnalysisState.start.outcome p.tree).2.scopes.Renamed ρ
        (AnalysisState.start.outcome (p.tree.rename ρ.apply)).2.scopes := by
  have htree : p.tree.rename ρ.apply = (p.rename ρ).tree := by
    rw [p.tree_rename]
    exact Tree.rename_congr _ fun x hx => (ρ.total_eq (h x hx)).symm
  obtain ⟨herror, hstage⟩ := Stage.Renamed.start.runs (p.steps_rename h) (p.confined h)
  rw [htree, outcome_program, outcome_program]
  exact ⟨herror, hstage.scopes⟩

/-- A program and the program with other identifiers have the same verdict: both are accepted, and their scopes
differ in the names only, or both are refused, and the errors differ in the names only. Every text whose tokens
are the renamed ones is read as the renamed program. -/
theorem renaming_keeps_verdict {text : String} {d : Derived} (h : parseText .program text = .ok d)
    {r : String → String} (hinjective : ∀ x ∈ d.tree.identifiers, ∀ y ∈ d.tree.identifiers, r x = r y → x = y)
    (hspelt : ∀ x ∈ d.tree.identifiers, Lexeme.Spelt ⟨.identifier, r x⟩) :
    (∀ v s, AnalysisState.start.analyse d.tree = (.ok v, s) → ∃ v' s',
      AnalysisState.start.analyse (d.tree.rename r) = (.ok v', s') ∧ s.scopes.tree.Renamed r s'.scopes.tree) ∧
    (∀ e s, AnalysisState.start.analyse d.tree = (.error e, s) → ∃ e' s',
      AnalysisState.start.analyse (d.tree.rename r) = (.error e', s') ∧ e.Renamed r e' ∧ e'.kind = e.kind ∧
        s.scopes.tree.Renamed r s'.scopes.tree) ∧
    ∀ text' p, (Lexed.ofString text').ending = .finish p →
      Relabelled (.rename r) (Lexed.ofString text).tokens (Lexed.ofString text').tokens →
        ∃ d', parseText .program text' = .ok d' ∧ d'.tree = d.tree.rename r := by
  obtain ⟨p, hp⟩ := parseText_program h
  let ρ : Renaming (· ∈ d.tree.identifiers) :=
    ⟨r, fun x y hx hy => hinjective x hx y hy, fun x hx => (hspelt x hx).of_identifier rfl, blank_not_identifier h⟩
  have hwithin : p.tree.Within (· ∈ d.tree.identifiers) := fun x hx => hp ▸ hx
  obtain ⟨herror, hscopes⟩ := p.outcome_rename (ρ := ρ) hwithin
  rw [hp] at herror hscopes
  have hcases := AnalysisState.start.outcome_cases (d.tree.rename r)
  refine ⟨?_, ?_, ?_⟩
  · intro v s hs
    rw [outcome_of_analyse_ok hs] at herror hscopes
    rcases hcases with ⟨v', s', hs', houtcome⟩ | ⟨e', s', hs', houtcome⟩
    · rw [houtcome] at hscopes
      exact ⟨v', s', hs', hscopes.tree⟩
    · rw [houtcome] at herror
      cases herror
  · intro e s hs
    rw [outcome_of_analyse_error hs] at herror hscopes
    rcases hcases with ⟨v', s', hs', houtcome⟩ | ⟨e', s', hs', houtcome⟩
    · rw [houtcome] at herror
      cases herror
    · rw [houtcome] at herror hscopes
      cases herror with
      | some hrenamed => exact ⟨e', s', hs', hrenamed, hrenamed.kind_eq, hscopes.tree⟩
  · intro text' p' hend htokens
    obtain ⟨d', hd', htree, -⟩ := parseText_relabel (Lexeme.kind_rename r) rfl h hend htokens
    exact ⟨d', hd', htree⟩

def exchanged (x : String) : String :=
  if x = "a" then "b" else if x = "b" then "a" else x

theorem renaming_keeps_verdict_exchanged : ∃ d d' v s v' s',
    parseText .program "fun a(b) { b = 1; }" = .ok d ∧
    (∀ x ∈ d.tree.identifiers, ∀ y ∈ d.tree.identifiers, exchanged x = exchanged y → x = y) ∧
    (∀ x ∈ d.tree.identifiers, Lexeme.Spelt ⟨.identifier, exchanged x⟩) ∧
    parseText .program "fun b(a) { a = 1; }" = .ok d' ∧
    AnalysisState.start.analyse d.tree = (.ok v, s) ∧ AnalysisState.start.analyse d'.tree = (.ok v', s') ∧
    s.scopes.tree.Renamed exchanged s'.scopes.tree := by
  obtain ⟨d, hd, hchecks⟩ := exists_derived "fun a(b) { b = 1; }"
    (fun d => decide (∀ x ∈ d.tree.identifiers, ∀ y ∈ d.tree.identifiers, exchanged x = exchanged y → x = y) &&
      decide (∀ x ∈ d.tree.identifiers, Kind.ofSpelling? (exchanged x) = none) &&
      decide ((AnalysisState.start.outcome d.tree).1 = none))
    (by decide +kernel)
  simp only [Bool.and_eq_true, decide_eq_true_eq] at hchecks
  obtain ⟨⟨hinjective, hplain⟩, hnone⟩ := hchecks
  have hspelt : ∀ x ∈ d.tree.identifiers, Lexeme.Spelt ⟨.identifier, exchanged x⟩ :=
    fun x hx => ⟨nofun, fun _ => hplain x hx, nofun⟩
  have hend : (Lexed.ofString "fun b(a) { a = 1; }").ending = .finish ⟨1, 19, 19⟩ := by
    decide +kernel
  have htokens : Relabelled (.rename exchanged) (Lexed.ofString "fun a(b) { b = 1; }").tokens
      (Lexed.ofString "fun b(a) { a = 1; }").tokens := by
    rw [Relabelled]
    decide +kernel
  obtain ⟨haccepted, -, hread⟩ := renaming_keeps_verdict hd hinjective hspelt
  obtain ⟨d', hd', htree⟩ := hread _ _ hend htokens
  rcases AnalysisState.start.outcome_cases d.tree with ⟨v, s, hs, -⟩ | ⟨e, s, -, houtcome⟩
  · obtain ⟨v', s', hs', hscopes⟩ := haccepted v s hs
    rw [← htree] at hs'
    exact ⟨d, d', v, s, v', s', hd, hinjective, hspelt, hd', hs, hs', hscopes⟩
  · rw [houtcome] at hnone
    cases hnone

end CompiScript
