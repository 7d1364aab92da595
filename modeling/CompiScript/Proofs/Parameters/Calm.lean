import CompiScript.Proofs.Pairing
import CompiScript.Proofs.Places
import CompiScript.Proofs.Uniqueness

namespace CompiScript

open Syntax

def Orderly : List Step → Option Nat → Option String → Prop
  | [], _, _ => True
  | s :: steps, d, r => s.Allowed d r ∧ Orderly steps (s.depth d) (s.latest r)

theorem Orderly.left {before after : List Step} {d : Option Nat} {r : Option String}
    (h : Orderly (before ++ after) d r) : Orderly before d r := by
  induction before generalizing d r with
  | nil => trivial
  | cons s before ih => exact ⟨h.1, ih h.2⟩

theorem execute_mirrored {f : String} {noted : Option ParamList} {names : List String} {m n : Nat} (hn : n ≠ 0)
    {steps : List Step} {d : Option Nat} {r : Option String} {g : Stage} (hsteps : Orderly steps d r)
    (h : Mirrored f noted names m n d r g.scopes) :
    ∃ d' r', Mirrored f noted names m n d' r' (execute steps g).2.scopes := by
  induction steps generalizing d r g with
  | nil => exact ⟨d, r, h⟩
  | cons s steps ih =>
    rw [execute]
    cases hs : s.run g with
    | ok g' => exact ih hsteps.2 (s.run_mirrored hn hs hsteps.1 h)
    | error e => exact ⟨d, r, h⟩

def Calm (steps : List Step) (d : Option Nat) : Prop :=
  ∀ r, Orderly steps d r

namespace Step

theorem orderly_cons_of_isPlain {s : Step} (hs : s.isPlain = true) {steps : List Step} {d : Option Nat}
    (hd : d ≠ some 0) {r : Option String} (h : Orderly steps d r) : Orderly (s :: steps) d r := by
  cases s with
  | enter scope => cases hs
  | exit => cases hs
  | bind f keys => cases hs
  | declare what x =>
    cases what with
    | function => cases hs
    | _ => exact ⟨hd, h⟩
  | _ => exact ⟨trivial, h⟩

end Step

section Calm

variable {steps before : List Step} {d : Option Nat}

theorem orderly_append_of_isPlain (hbefore : ∀ s ∈ before, s.isPlain = true) (hd : d ≠ some 0) {r : Option String}
    (h : Orderly steps d r) : Orderly (before ++ steps) d r := by
  induction before with
  | nil => exact h
  | cons s before ih =>
    obtain ⟨hs, hrest⟩ := List.forall_mem_cons.mp hbefore
    exact Step.orderly_cons_of_isPlain hs hd (ih hrest)

theorem Calm.append (h : Calm steps d) (hbefore : ∀ s ∈ before, s.isPlain = true) (hd : d ≠ some 0) :
    Calm (before ++ steps) d :=
  fun r => orderly_append_of_isPlain hbefore hd (h r)

theorem Calm.cons (h : Calm steps d) {s : Step} (hs : s.isPlain = true) (hd : d ≠ some 0) : Calm (s :: steps) d :=
  fun r => Step.orderly_cons_of_isPlain hs hd (h r)

theorem Calm.enter (h : Calm steps (d.map (· + 1))) (scope : String) : Calm (.enter scope :: steps) d :=
  fun r => ⟨trivial, h r⟩

theorem Calm.exit (h : Calm steps d) : Calm (.exit :: steps) (d.map (· + 1)) := by
  intro r
  cases d with
  | none => exact ⟨trivial, h r⟩
  | some d => exact ⟨trivial, h r⟩

theorem map_succ_ne (d : Option Nat) : d.map (· + 1) ≠ some 0 := by
  cases d <;> simp

end Calm

namespace Syntax

open Step

variable {steps : List Step} {d : Option Nat}

theorem calm_condition (h : Calm steps d) (hd : d ≠ some 0) (e : Expression) (place : String) :
    Calm (e.steps ++ require place :: steps) d :=
  (h.cons rfl hd).append (fun _ => e.isPlain_of_mem) hd

theorem Params.orderly (h : Calm steps d) (hd : d ≠ some 0) (f : String) (params : Option Params) :
    Orderly (Params.steps f params ++ steps) d (some f) := by
  cases params with
  | none => exact h _
  | some ps =>
    rw [Params.steps, List.append_assoc]
    refine orderly_append_of_isPlain ?_ hd ⟨rfl, h _⟩
    intro s hs
    obtain ⟨x, -, rfl⟩ := List.mem_map.mp hs
    rfl

mutual

theorem Statement.calm (scope owner : Option String) {steps : List Step} {d : Option Nat} (hd : d ≠ some 0)
    (h : Calm steps d) : ∀ s : Statement, Calm (s.steps scope owner ++ steps) d
  | .expression e => h.append (fun _ => e.isPlain_of_mem) hd
  | .forLoop head body => by
    have hbody := body.calm none none (map_succ_ne _) h.exit.exit
    have hhead := (hbody.enter "For Loop Body").append (fun _ => head.isPlain_of_mem) (map_succ_ne _)
    rw [Statement.steps]
    simpa using hhead.enter "For Loop"
  | .ifThen condition yes => by
    rw [Statement.steps, List.append_assoc]
    exact calm_condition (yes.calm _ _ hd h) hd condition _
  | .ifElse condition yes no => by
    have hyes := yes.calm (some "If Block") none hd (no.calm (some "Else Block") none hd h)
    rw [Statement.steps]
    simpa using calm_condition hyes hd condition " in if statement"
  | .print e => by
    have he := (h.cons (s := .endPrint) rfl hd).append (fun _ => e.isPlain_of_mem) hd
    rw [Statement.steps]
    simpa using he.cons (s := .beginPrint) rfl hd
  | .giveBack value => h.append (fun _ => returnSteps_isPlain) hd
  | .whileLoop condition body => by
    rw [Statement.steps, List.append_assoc]
    exact calm_condition (body.calm _ _ hd h) hd condition _
  | .block body => by
    have hbody := Declaration.calmAll none (map_succ_ne _) h.exit body
    rw [Statement.steps]
    simpa using hbody.enter (scope.getD "Block Scope")

theorem Declaration.calm (owner : Option String) {steps : List Step} {d : Option Nat} (hd : d ≠ some 0)
    (h : Calm steps d) : ∀ e : Declaration, Calm (e.steps owner ++ steps) d
  | .classType _ => h
  | .function name params body => by
    have hbody := Declaration.calmAll (some name.text) (map_succ_ne _) (h.cons (s := .unbind) rfl hd).exit.exit body
    have hparams := Params.orderly (hbody.enter ("Function " ++ name.text ++ " Body")) (map_succ_ne _) name.text params
    have hsteps : (Declaration.function name params body).steps owner ++ steps =
        declare .function name.text :: enter ("Function '" ++ name.text ++ "'") :: (Params.steps name.text params ++
          enter ("Function " ++ name.text ++ " Body") :: (Declaration.stepsAll (some name.text) body ++
            exit :: exit :: unbind :: steps)) := by
      simp [Declaration.steps]
    intro r
    rw [hsteps]
    exact ⟨hd, trivial, hparams⟩
  | .variable v => h.append (fun _ => v.isPlain_of_mem) hd
  | .statement s => s.calm none owner hd h

theorem Declaration.calmAll (owner : Option String) {steps : List Step} {d : Option Nat} (hd : d ≠ some 0)
    (h : Calm steps d) : ∀ ds : List Declaration, Calm (Declaration.stepsAll owner ds ++ steps) d
  | [] => h
  | e :: ds => by
    rw [Declaration.stepsAll, List.append_assoc]
    exact e.calm owner hd (Declaration.calmAll owner hd h ds)

end

theorem Program.Contains.calm_after {p : Program} {pl : Place} (h : p.Contains pl) : Calm pl.after none := by
  have hnone : (none : Option Nat) ≠ some 0 := nofun
  induction h with
  | @top ds es e _ =>
    have hnil : Calm [] none := fun _ => trivial
    simpa using Declaration.calmAll none hnone hnil es
  | @within pl q _ hq ih =>
    cases hq with
    | @block ds es e _ => simpa [Place.inner] using Declaration.calmAll none hnone (Calm.exit ih) es
    | forBody _ => simpa [Place.inner] using (Calm.exit (Calm.exit ih))
    | ifThen _ => exact ih
    | @ifYes _ _ no _ => exact no.calm _ _ hnone ih
    | ifNo _ => exact ih
    | whileBody _ => exact ih
  | @inBody pl q _ hq ih =>
    obtain ⟨hpart⟩ := hq
    next name _ _ es _ =>
    have hend := Calm.exit (Calm.exit (ih.cons (s := .unbind) rfl hnone))
    simpa [Place.member] using Declaration.calmAll (some name.text) hnone hend es

namespace Place

def heading (name : Name) (params : Option Params) : List Step :=
  declare .function name.text :: enter ("Function '" ++ name.text ++ "'") :: Params.steps name.text params

def remainder (pl : Place) (name : Name) (body : List Declaration) : List Step :=
  enter ("Function " ++ name.text ++ " Body") :: (Declaration.stepsAll (some name.text) body ++
    exit :: exit :: unbind :: pl.after)

theorem steps_eq_heading {p : Program} {pl : Place} (h : p.Contains pl) {name : Name} {params : Option Params}
    {body : List Declaration} (hpart : pl.part = .function name params body) :
    p.steps = pl.before ++ heading name params ++ pl.remainder name body := by
  rw [h.steps_eq, steps, hpart]
  simp [Declaration.steps, heading, remainder]

theorem calm_remainder {p : Program} {pl : Place} (h : p.Contains pl) (name : Name) (body : List Declaration) :
    Calm (pl.remainder name body) (some 0) := by
  have hlast : Calm (exit :: unbind :: pl.after) (some 0) :=
    fun r => ⟨trivial, h.calm_after.cons (s := .unbind) rfl nofun r⟩
  exact (Declaration.calmAll (some name.text) (map_succ_ne _) hlast.exit body).enter _

end Place

end Syntax

end CompiScript
