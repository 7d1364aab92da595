import CompiScript.Proofs.Places
import CompiScript.Proofs.Uniqueness

namespace CompiScript

open Syntax

inductive Symbol.Parted (x : String) : Symbol → Prop
  | ofVariable (type : Option Ty) : Parted x ⟨x, .variable type, .variable none⟩
  | ofFunction (returns : Option Ty) (params : Option ParamList) :
      Parted x ⟨x, .function (some Ty.nil) none, .function returns params⟩

def Table.Every (Q : String → Symbol → Prop) (t : Table) : Prop :=
  ∀ x symbol, (x, symbol) ∈ t → Q x symbol

def Scopes.Everywhere (Q : String → Symbol → Prop) (s : Scopes) : Prop :=
  ∀ t ∈ s.tables, t.Every Q

structure Lasts (Q : String → Symbol → Prop) : Prop where
  type : ∀ {x s} t, Q x s → s.entity.belongs .variables = true → Q x (s.setType t)
  params : ∀ {x s} keys, Q x s → s.entity.belongs .functions = true → Q x (s.setParams keys)
  returns : ∀ {x s} r, Q x s → s.entity.belongs .functions = true → Q x (s.setReturns r)

section Everywhere

variable {Q : String → Symbol → Prop} {fs : List Frame}

theorem forall_chainTables_cons {P : Table → Prop} {f : Frame} :
    (∀ t ∈ chainTables (f :: fs), P t) ↔
      P f.table ∧ (∀ t ∈ Scope.tablesAll f.closed, P t) ∧ ∀ t ∈ chainTables fs, P t := by
  simp only [chainTables, List.forall_mem_append, List.forall_mem_cons]
  exact and_comm.trans and_assoc

theorem Table.Every.put {t : Table} {x : String} {s : Symbol} (ht : t.Every Q) (hs : Q x s) :
    (t.put x s).Every Q := by
  intro y symbol hmem
  rcases mem_put hmem with heq | hold
  · cases heq
    exact hs
  · exact ht y symbol hold

theorem Table.Every.put_found {t : Table} {x : String} {c : Category} {s s' : Symbol} (ht : t.Every Q)
    (h : t.find? x (some c) = some s) (hs : Q x s → s.entity.belongs c = true → Q x s') : (t.put x s').Every Q :=
  ht.put (hs (ht x s (mem_of_find? h)) (find?_eq_some h).2)

theorem changeIn_everywhere {x : String} {c : Category} {change : Symbol → Symbol}
    (hchange : ∀ s, Q x s → s.entity.belongs c = true → Q x (change s))
    (h : ∀ t ∈ chainTables fs, t.Every Q) :
    ∀ t ∈ chainTables (changeIn x c change fs), t.Every Q := by
  induction fs with
  | nil => exact h
  | cons f fs ih =>
    obtain ⟨hf, hclosed, hfs⟩ := forall_chainTables_cons.mp h
    rw [changeIn]
    split
    · next s hs => exact forall_chainTables_cons.mpr ⟨hf.put_found hs (hchange s), hclosed, hfs⟩
    · exact forall_chainTables_cons.mpr ⟨hf, hclosed, ih hfs⟩

theorem Scopes.withChain_everywhere {s : Scopes} (hs : s.Everywhere Q)
    (h : ∀ t ∈ chainTables fs, t.Every Q) : (s.withChain fs).Everywhere Q := by
  cases fs with
  | nil => exact hs
  | cons f fs =>
    rw [Everywhere, tables_withChain]
    exact h

theorem Step.run_everywhere (hQ : Lasts Q) {s : Step} {g g' : Stage} (h : s.run g = .ok g')
    (hdeclare : ∀ what x, s = .declare what x → Q x (Symbol.ofEntity x what.entity)) (hg : g.scopes.Everywhere Q) :
    g'.scopes.Everywhere Q := by
  have hchain : ∀ t ∈ chainTables g.scopes.chain, t.Every Q := by
    rw [← Scopes.tables_eq]
    exact hg
  obtain ⟨hcurrent, hclosed, houter⟩ := forall_chainTables_cons.mp hchain
  have hset : ∀ x t, (g.scopes.setType x t).Everywhere Q :=
    fun x t => Scopes.withChain_everywhere hg (changeIn_everywhere (fun _ => hQ.type t) hchain)
  cases run_takes h with
  | enter scope =>
    intro t ht
    rw [Scopes.tables_enter, List.mem_append, List.mem_singleton] at ht
    rcases ht with hold | rfl
    · exact hg t hold
    · exact fun _ _ hmem => nomatch hmem
  | exit =>
    rw [Scopes.Everywhere, Scopes.tables_exit]
    exact hg
  | @declare what x hfree hnew =>
    rw [Scopes.Everywhere, Scopes.tables_eq]
    exact forall_chainTables_cons.mpr ⟨hcurrent.put (hdeclare what x rfl), hclosed, houter⟩
  | bind f keys => exact Scopes.withChain_everywhere hg (changeIn_everywhere (fun _ => hQ.params keys) hchain)
  | @assignFirst x hold => exact hset x g.type
  | initialise x => exact hset x g.type
  | @returnFirst f hflag hold =>
    exact Scopes.withChain_everywhere hg (changeIn_everywhere (fun _ => hQ.returns _) hchain)
  | _ => exact hg

end Everywhere

theorem Symbol.parted_lasts : Lasts Symbol.Parted where
  type := by
    rintro x s t ⟨⟩ hs
    · exact .ofVariable t
    · cases hs
  params := by
    rintro x s keys ⟨⟩ hs
    · cases hs
    · exact .ofFunction _ (some (.keyed keys))
  returns := by
    rintro x s r ⟨⟩ hs
    · cases hs
    · exact .ofFunction r _

theorem Symbol.parted_declared (what : Declared) (x : String) : (Symbol.ofEntity x what.entity).Parted x := by
  cases what with
  | function => exact .ofFunction _ _
  | _ => exact .ofVariable none

theorem execute_parted (steps : List Step) {g : Stage} (hg : g.scopes.Everywhere Symbol.Parted) :
    (execute steps g).2.scopes.Everywhere Symbol.Parted :=
  execute_invariant (P := fun g => g.scopes.Everywhere Symbol.Parted)
    (fun _ _ _ hs => Step.run_everywhere Symbol.parted_lasts hs fun what x _ => Symbol.parted_declared what x) steps hg

theorem Scopes.start_everywhere (Q : String → Symbol → Prop) : Scopes.start.Everywhere Q := by
  intro t ht x symbol hmem
  rw [List.mem_singleton.mp ht] at hmem
  cases hmem

namespace Symbol.Parted

variable {x : String} {s : Symbol}

theorem noted_eq_iff (h : s.Parted x) : s.noted = s.entity.notes ↔
    s.type? = none ∧ (s.entity.belongs .functions = true → s.returns? = some Ty.nil ∧ s.params? = none) := by
  cases h with
  | ofVariable t => simp [type?, Entity.belongs, Entity.notes, eq_comm]
  | ofFunction r ps => simp [type?, returns?, params?, Entity.belongs, Entity.notes]

theorem describe_variable (h : s.Parted x) (hs : s.entity.belongs .variables = true) :
    s.describe = .ok (x ++ ": " ++ Entity.variableText s.type?) := by
  cases h with
  | ofVariable t => rfl
  | ofFunction r ps => cases hs

theorem describe_function (h : s.Parted x) (hs : s.entity.belongs .functions = true) :
    s.describe = .error .noParameters := by
  cases h with
  | ofVariable t => cases hs
  | ofFunction r ps => rfl

end Symbol.Parted

namespace Step

def declaresFunction : Step → Bool
  | declare .function _ => true
  | _ => false

theorem declaresFunction_of_isPlain {steps : List Step} (h : ∀ s ∈ steps, s.isPlain = true) :
    steps.any declaresFunction = false := by
  rw [List.any_eq_false]
  intro s hs hfunction
  have hplain := h s hs
  cases s with
  | declare what x => cases what <;> simp_all [isPlain, declaresFunction]
  | _ => cases hfunction

end Step

namespace Syntax

open Step

@[simp] theorem Expression.any_declaresFunction (e : Expression) : e.steps.any declaresFunction = false :=
  declaresFunction_of_isPlain fun _ => e.isPlain_of_mem

@[simp] theorem VarDecl.any_declaresFunction (v : VarDecl) : v.steps.any declaresFunction = false :=
  declaresFunction_of_isPlain fun _ => v.isPlain_of_mem

@[simp] theorem ForHead.any_declaresFunction (h : ForHead) : h.steps.any declaresFunction = false :=
  declaresFunction_of_isPlain fun _ => h.isPlain_of_mem

mutual

theorem Statement.any_declaresFunction (scope owner : Option String) : ∀ s : Statement,
    (s.steps scope owner).any declaresFunction = s.declares
  | .expression e => e.any_declaresFunction
  | .forLoop head body => by
    simp [Statement.steps, Statement.declares, declaresFunction, body.any_declaresFunction]
  | .ifThen condition yes => by
    simp [Statement.steps, Statement.declares, declaresFunction, yes.any_declaresFunction]
  | .ifElse condition yes no => by
    simp [Statement.steps, Statement.declares, declaresFunction, yes.any_declaresFunction, no.any_declaresFunction]
  | .print e => by simp [Statement.steps, Statement.declares, declaresFunction]
  | .giveBack _ => declaresFunction_of_isPlain fun _ => returnSteps_isPlain
  | .whileLoop condition body => by
    simp [Statement.steps, Statement.declares, declaresFunction, body.any_declaresFunction]
  | .block body => by
    simp [Statement.steps, Statement.declares, declaresFunction, Declaration.any_declaresFunction none body]

theorem Declaration.any_declaresFunction_steps (owner : Option String) : ∀ d : Declaration,
    (d.steps owner).any declaresFunction = d.declares
  | .classType _ => rfl
  | .function _ _ _ => rfl
  | .variable v => v.any_declaresFunction
  | .statement s => s.any_declaresFunction none owner

theorem Declaration.any_declaresFunction (owner : Option String) : ∀ ds : List Declaration,
    (Declaration.stepsAll owner ds).any declaresFunction = Declaration.declaresAny ds
  | [] => rfl
  | d :: ds => by
    rw [Declaration.stepsAll, List.any_append, d.any_declaresFunction_steps, Declaration.any_declaresFunction owner ds,
      Declaration.declaresAny]

end

end Syntax

theorem execute_declared {steps : List Step} {g g' : Stage} (h : execute steps g = (none, g'))
    (hsteps : steps.any Step.declaresFunction = true) : ∃ n x, (g'.scopes.returnsAt n x).isSome = true := by
  obtain ⟨s, hs, hfunction⟩ := List.any_eq_true.mp hsteps
  obtain ⟨before, after, rfl⟩ := List.append_of_mem hs
  obtain ⟨g₁, -, hrest⟩ := execute_append_ok h
  obtain ⟨g₂, hrun, hafter⟩ := execute_cons_ok hrest
  obtain ⟨x, rfl⟩ : ∃ x, s = .declare .function x := by
    cases s with
    | declare what x =>
      cases what with
      | function => exact ⟨x, rfl⟩
      | _ => cases hfunction
    | _ => cases hfunction
  refine ⟨g₁.scopes.sketch.here, x, execute_induction
    (P := fun g => (g.scopes.returnsAt g₁.scopes.sketch.here x).isSome = true) ?_ hafter ?_⟩
  · intro s g g' hrun hg
    rcases (Step.run_takes hrun).returnsAt_cases g₁.scopes.sketch.here x with hsame | ⟨-, hnew⟩ | ⟨-, -, -, hnew⟩
    · rw [hsame]
      exact hg
    · rw [hnew]
      rfl
    · rw [hnew]
      rfl
  · cases Step.run_takes hrun with
    | declare hfree hnew =>
      rw [Scopes.returnsAt_declared hnew, if_pos ⟨rfl, rfl⟩]
      rfl

theorem Scopes.exists_function {s : Scopes} {n : Nat} {x : String} (h : (s.returnsAt n x).isSome = true) :
    ∃ t ∈ s.tables, ∃ symbol, (x, symbol) ∈ t ∧ symbol.entity.belongs .functions = true := by
  obtain ⟨r, hr⟩ := Option.isSome_iff_exists.mp h
  obtain ⟨notes, hnotes, hr⟩ := Option.bind_eq_some_iff.mp hr
  obtain ⟨t, ht, rfl⟩ := Option.map_eq_some_iff.mp ((List.getElem?_map ..).symm.trans hnotes)
  obtain ⟨symbol, hsymbol, -⟩ := Option.map_eq_some_iff.mp hr
  exact ⟨t, List.mem_of_getElem? ht, symbol, Table.mem_of_find? hsymbol, (Table.find?_eq_some hsymbol).2⟩

theorem execute_variables {steps : List Step} {g g' : Stage} (h : execute steps g = (none, g'))
    (hsteps : steps.any Step.declaresFunction = false)
    (hg : g.scopes.Everywhere fun _ s => s.entity.belongs .variables = true) :
    g'.scopes.Everywhere fun _ s => s.entity.belongs .variables = true := by
  have hlasts : Lasts fun _ s => s.entity.belongs .variables = true :=
    ⟨fun _ _ _ => rfl, fun _ hs _ => hs, fun _ hs _ => hs⟩
  induction steps generalizing g with
  | nil =>
    cases h
    exact hg
  | cons s steps ih =>
    obtain ⟨g₁, hrun, hrest⟩ := execute_cons_ok h
    rw [List.any_cons, Bool.or_eq_false_iff] at hsteps
    refine ih hrest hsteps.2 (Step.run_everywhere hlasts hrun ?_ hg)
    rintro what x rfl
    cases what with
    | function => cases hsteps.1
    | _ => rfl

theorem describable_iff {p : Program} {g : Stage} (h : execute p.steps .start = (none, g)) :
    (g.scopes.Everywhere fun _ s => ∃ text, s.describe = .ok text) ↔ Declaration.declaresAny p.body = false := by
  have hparted : g.scopes.Everywhere Symbol.Parted := by
    have hend := execute_parted p.steps (g := .start) (Scopes.start_everywhere _)
    rw [h] at hend
    exact hend
  rw [← Declaration.any_declaresFunction none p.body]
  constructor
  · intro hall
    apply Bool.eq_false_iff.mpr
    intro hdeclares
    obtain ⟨n, x, hx⟩ := execute_declared h hdeclares
    obtain ⟨t, ht, symbol, hmem, hfunction⟩ := Scopes.exists_function hx
    obtain ⟨text, hdescribe⟩ := hall t ht x symbol hmem
    rw [(hparted t ht x symbol hmem).describe_function hfunction] at hdescribe
    cases hdescribe
  · intro hnone t ht x symbol hmem
    have hvariable := execute_variables h hnone (Scopes.start_everywhere _) t ht x symbol hmem
    exact ⟨_, (hparted t ht x symbol hmem).describe_variable hvariable⟩

/-- At every point of an analysis, and at its end, the two sides of each symbol of each scope are apart from what has
been found out: they agree exactly where that is nothing. A variable is described with the type that it has got, a
function cannot be described; so after an analysis without an error all symbols can be described exactly if the program
declares no function. -/
theorem copies_agree_until_inferred {text : String} {d : Derived} (h : parseText .program text = .ok d) :
    (∃ p : Program, p.tree = d.tree) ∧ AnalysisState.start.scopes.Everywhere Symbol.Parted ∧
    ∀ p : Program, p.tree = d.tree →
      (∀ s : AnalysisState, s.scopes.Everywhere Symbol.Parted →
        (s.analyse d.tree).2.scopes.Everywhere Symbol.Parted ∧
        ∀ before after, p.steps = before ++ after →
          (execute before ⟨s.standing, none⟩).2.scopes.Everywhere Symbol.Parted) ∧
      (∀ s : Scopes, s.Everywhere Symbol.Parted → s.Everywhere fun x symbol =>
        (symbol.noted = symbol.entity.notes ↔ symbol.type? = none ∧
          (symbol.entity.belongs .functions = true → symbol.returns? = some Ty.nil ∧ symbol.params? = none)) ∧
        (symbol.entity.belongs .variables = true →
          symbol.describe = .ok (x ++ ": " ++ Entity.variableText symbol.type?)) ∧
        (symbol.entity.belongs .functions = true → symbol.describe = .error .noParameters)) ∧
      ∀ v s, AnalysisState.start.analyse d.tree = (.ok v, s) →
        ((s.scopes.Everywhere fun _ symbol => ∃ shown, symbol.describe = .ok shown) ↔
          Declaration.declaresAny p.body = false) := by
  refine ⟨parseText_program h, Scopes.start_everywhere _, ?_⟩
  intro p hp
  rw [← hp]
  refine ⟨?_, ?_, ?_⟩
  · intro s hs
    refine ⟨?_, fun before _ _ => execute_parted before hs⟩
    have hscopes : (s.analyse p.tree).2.scopes = (execute p.steps ⟨s.standing, none⟩).2.scopes :=
      congrArg Standing.scopes (analyse_standing s p)
    rw [hscopes]
    exact execute_parted p.steps hs
  · intro s hs t ht x symbol hmem
    have hparted := hs t ht x symbol hmem
    exact ⟨hparted.noted_eq_iff, hparted.describe_variable, hparted.describe_function⟩
  · intro v s hrun
    obtain ⟨g, hexecute, hstanding⟩ := execute_of_analyse hrun
    have hscopes : s.scopes = g.scopes := congrArg Standing.scopes hstanding
    rw [hscopes]
    exact describable_iff hexecute

def variableAndFunction : Program :=
  ⟨[.variable ⟨.named "x", some (.ofPrimary (.number "1"))⟩,
    .function (.named "f") none [.statement (.giveBack (some (.ofPrimary (.number "1"))))]]⟩

theorem copies_agree_until_inferred_or_not :
    ∃ d v s, parseText .program "var x = 1; fun f() { return 1; }" = .ok d ∧
      AnalysisState.start.analyse d.tree = (.ok v, s) ∧ s.scopes.Everywhere Symbol.Parted ∧
      (∃ t ∈ s.scopes.tables, ("x", ⟨"x", .variable (some Ty.num), .variable none⟩) ∈ t ∧
        ("f", ⟨"f", .function (some Ty.nil) none, .function (some Ty.num) none⟩) ∈ t) ∧
      ¬s.scopes.Everywhere fun _ symbol => ∃ shown, symbol.describe = .ok shown := by
  obtain ⟨d, hd, htree⟩ := exists_derived_tree "var x = 1; fun f() { return 1; }" variableAndFunction
    (by decide +kernel)
  have htables : ∃ t ∈ (AnalysisState.start.analyse d.tree).2.scopes.tables,
      ("x", ⟨"x", .variable (some Ty.num), .variable none⟩) ∈ t ∧
        ("f", ⟨"f", .function (some Ty.nil) none, .function (some Ty.num) none⟩) ∈ t := by
    rw [← htree]
    decide +kernel
  have hok : (AnalysisState.start.analyse d.tree).1.isOk = true := by
    rw [← htree]
    decide +kernel
  obtain ⟨-, hstart, hprogram⟩ := copies_agree_until_inferred hd
  obtain ⟨hparted, -, hdescribed⟩ := hprogram variableAndFunction htree
  have hend := (hparted .start hstart).1
  cases hrun : AnalysisState.start.analyse d.tree with
  | mk r s =>
    rw [hrun] at htables hok hend
    cases r with
    | error e => cases hok
    | ok v =>
      refine ⟨d, v, s, hd, hrun, hend, htables, ?_⟩
      rw [hdescribed v s hrun]
      decide

end CompiScript
