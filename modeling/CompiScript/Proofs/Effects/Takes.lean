import CompiScript.Proofs.Entries

/-!
What a step does. The ways in which a step can be taken are listed once; from them follows what it
leaves as it is: the types of variables, the return types of functions, scopes that have been left, and
that all types are proper ones.
-/

namespace CompiScript

open Syntax

inductive Step.Takes (g : Stage) : Step → Stage → Prop
  | enter (scope : String) : Takes g (.enter scope) { g with scopes := g.scopes.enter scope }
  | exit : Takes g .exit { g with scopes := g.scopes.exit }
  | declare {what : Declared} {x : String} (hfree : g.scopes.find? x (some what.category) = none)
      (hnew : g.scopes.current.table.lookup x = none) :
      Takes g (.declare what x) { g with scopes := g.scopes.declared what x }
  | bind (f : String) (keys : List String) :
      Takes g (.bind f keys) { g with scopes := g.scopes.setParams f keys, inReturn := true }
  | unbind : Takes g .unbind { g with inReturn := false }
  | beginPrint : Takes g .beginPrint { g with inPrint := true }
  | endPrint : Takes g .endPrint { g with inPrint := false }
  | aim {x : String} (hfound : (g.scopes.find? x (some .variables)).isSome = true) : Takes g (.aim x) g
  | weigh {e : LogicOr} {t : Option Ty} (ht : e.type g.toStanding = .ok t) :
      Takes g (.weigh e) { g with type := t }
  | assignFirst {x : String} (hold : (g.scopes.find? x (some .variables)).bind Symbol.type? = none) :
      Takes g (.assign x) { g with scopes := g.scopes.setType x g.type, type := none }
  | assignAgain {x : String} {t : Ty} (hold : (g.scopes.find? x (some .variables)).bind Symbol.type? = some t)
      (hshow : t.text = Ty.show? g.type) : Takes g (.assign x) { g with type := none }
  | initialise (x : String) : Takes g (.initialise x) { g with scopes := g.scopes.setType x g.type }
  | require {place : String} (ht : g.type = some Ty.boolean) : Takes g (.require place) g
  | returnBare (f : String) : Takes g (.giveBack (some f) true) g
  | returnUnchecked {owner : Option String} (hflag : g.inReturn = true) : Takes g (.giveBack owner false) g
  | returnFirst {f : String} (hflag : g.inReturn = false)
      (hold : (g.scopes.find? f (some .functions)).bind Symbol.returns? = some Ty.nil) :
      Takes g (.giveBack (some f) false) { g with scopes := g.scopes.setReturns f g.type }
  | returnAgain {f : String} (hflag : g.inReturn = false)
      (hold : (g.scopes.find? f (some .functions)).bind Symbol.returns? ≠ some Ty.nil)
      (hshow : Ty.show? ((g.scopes.find? f (some .functions)).bind Symbol.returns?) = Ty.show? g.type) :
      Takes g (.giveBack (some f) false) g

namespace Step

theorem run_declare_takes {what : Declared} {x : String} {g g' : Stage} (h : (declare what x).run g = .ok g') :
    (declare what x).Takes g g' := by
  obtain ⟨hnew, rfl⟩ := run_declare_ok h
  rw [run, declareIn_eq] at h
  split at h
  · cases h
  · next hfound => exact .declare (Option.not_isSome_iff_eq_none.mp hfound) hnew

theorem run_assign_takes {x : String} {g g' : Stage} (h : (assign x).run g = .ok g') : (assign x).Takes g g' := by
  simp only [run, assignIn] at h
  split at h
  · next hold =>
    cases h
    exact .assignFirst hold
  · next t hold =>
    split at h
    · cases h
    · next hshow =>
      cases h
      exact .assignAgain hold (Decidable.not_not.mp hshow)

theorem run_giveBack_takes {owner : Option String} {bare : Bool} {g g' : Stage}
    (h : (giveBack owner bare).run g = .ok g') : (giveBack owner bare).Takes g g' := by
  cases bare with
  | true =>
    cases owner with
    | none => cases h
    | some f =>
      cases h
      exact .returnBare f
  | false =>
    simp only [run] at h
    by_cases hflag : g.inReturn = true
    · rw [if_pos hflag] at h
      cases h
      exact .returnUnchecked hflag
    · rw [if_neg hflag] at h
      have hoff : g.inReturn = false := Bool.eq_false_iff.mpr hflag
      cases owner with
      | none => cases h
      | some f =>
        simp only [returnIn] at h
        split at h
        · next hold =>
          cases h
          exact .returnFirst hoff hold
        · next hold =>
          split at h
          · cases h
          · next hshow =>
            cases h
            exact .returnAgain hoff hold (Decidable.not_not.mp hshow)

theorem run_takes {s : Step} {g g' : Stage} (h : s.run g = .ok g') : s.Takes g g' := by
  cases s with
  | enter scope => cases h; exact .enter scope
  | exit => cases h; exact .exit
  | declare what x => exact run_declare_takes h
  | bind f keys => cases h; exact .bind f keys
  | unbind => cases h; exact .unbind
  | beginPrint => cases h; exact .beginPrint
  | endPrint => cases h; exact .endPrint
  | aim x =>
    simp only [run] at h
    split at h
    · cases h
    · next hfound =>
      cases h
      exact .aim (Option.isSome_iff_ne_none.mpr (by simpa using hfound))
  | weigh e =>
    simp only [run] at h
    cases ht : e.type g.toStanding with
    | error err => rw [ht] at h; cases h
    | ok t => rw [ht] at h; cases h; exact .weigh ht
  | assign x => exact run_assign_takes h
  | initialise x => cases h; exact .initialise x
  | require place =>
    simp only [run, Operand.checkBoolean] at h
    by_cases ht : g.type = some Ty.boolean
    · rw [if_pos ht] at h
      cases h
      exact .require ht
    · rw [if_neg ht] at h
      cases h
  | giveBack owner bare => exact run_giveBack_takes h

theorem Takes.run {s : Step} {g g' : Stage} (h : s.Takes g g') : s.run g = .ok g' := by
  cases h with
  | declare hfree hnew => simp [Step.run, declareIn_eq, hfree, hnew]
  | aim hfound => simp [Step.run, Option.isNone_eq_false_iff.mpr hfound]
  | weigh ht =>
    rw [Step.run, ht]
    rfl
  | assignFirst hold => rw [Step.run, assignIn, hold]
  | assignAgain hold hshow => simp [Step.run, assignIn, hold, hshow]
  | require ht => simp [Step.run, Operand.checkBoolean, ht, Except.map]
  | returnUnchecked hflag => rw [Step.run, if_pos hflag]
  | returnFirst hflag hold => simp [Step.run, hflag, returnIn, hold]
  | returnAgain hflag hold hshow => simp [Step.run, hflag, returnIn, hold, hshow]
  | _ => rfl

end Step

theorem execute_trans {before after : List Step} {g g₁ g' : Stage} (hbefore : execute before g = (none, g₁))
    (hafter : execute after g₁ = (none, g')) : execute (before ++ after) g = (none, g') := by
  rw [execute_append, hbefore]
  exact hafter

theorem execute_rest {before after : List Step} {g g₁ g' : Stage} (h : execute (before ++ after) g = (none, g'))
    (hbefore : execute before g = (none, g₁)) : execute after g₁ = (none, g') := by
  rw [execute_append, hbefore] at h
  exact h

theorem execute_single {s : Step} {g g' : Stage} (h : s.run g = .ok g') : execute [s] g = (none, g') := by
  simp only [execute, h]

theorem execute_induction {P : Stage → Prop} (hstep : ∀ (s : Step) (g g' : Stage), s.run g = .ok g' → P g → P g')
    {steps : List Step} {g g' : Stage} (h : execute steps g = (none, g')) (hg : P g) : P g' := by
  induction steps generalizing g with
  | nil =>
    cases h
    exact hg
  | cons s steps ih =>
    obtain ⟨g₁, hs, hrest⟩ := execute_cons_ok h
    exact ih hrest (hstep s g g₁ hs hg)

theorem execute_invariant {P : Stage → Prop} (hstep : ∀ (s : Step) (g g' : Stage), s.run g = .ok g' → P g → P g')
    (steps : List Step) {g : Stage} (hg : P g) : P (execute steps g).2 := by
  induction steps generalizing g with
  | nil => exact hg
  | cons s steps ih =>
    rw [execute]
    cases hs : s.run g with
    | ok g' => exact ih (hstep s g g' hs hg)
    | error e => exact hg

namespace Scopes

theorem note_here {s : Scopes} {x : String} (h : s.current.table.lookup x = none) :
    s.typeAt s.sketch.here x = none ∧ s.returnsAt s.sketch.here x = none := by
  rw [typeAt, note_of_table s.tables_here, returnsAt, note_of_table s.tables_here]
  simp [Table.types, Table.returns, Table.find?, h]

end Scopes

namespace Step

def gives? : Step → Option String
  | assign x => some x
  | initialise x => some x
  | _ => none

theorem Takes.typeAt_cases {s : Step} {g g' : Stage} (h : s.Takes g g') (n : Nat) (y : String) :
    g'.scopes.typeAt n y = g.scopes.typeAt n y ∨
      g.scopes.typeAt n y = none ∧ g'.scopes.typeAt n y = some none ∨
      s.gives? = some y ∧ g.scopes.home? y .variables = some n ∧ g'.scopes.typeAt n y = some g.type ∧
        (s = .assign y → g.scopes.typeAt n y = some none) := by
  cases h with
  | enter scope => exact .inl (congrFun (congrFun (g.scopes.note_enter rfl scope) n) y)
  | exit => exact .inl (congrFun (congrFun g.scopes.note_exit n) y)
  | @declare what x hfree hnew =>
    cases what with
    | function => exact .inl (congrFun (congrFun (Scopes.typeAt_declared_function hnew) n) y)
    | _ =>
      rw [Scopes.typeAt_declared hnew rfl]
      by_cases hx : g.scopes.sketch.here = n ∧ y = x
      · obtain ⟨rfl, rfl⟩ := hx
        exact .inr (.inl ⟨(Scopes.note_here hnew).1, if_pos ⟨rfl, rfl⟩⟩)
      · exact .inl (if_neg hx)
  | bind f keys => exact .inl (congrFun (congrFun (g.scopes.typeAt_setParams f keys) n) y)
  | @assignFirst x hold =>
    rw [Scopes.typeAt_setType]
    by_cases hx : g.scopes.home? x .variables = some n ∧ y = x
    · obtain ⟨hhome, rfl⟩ := hx
      refine .inr (.inr ⟨rfl, hhome, if_pos ⟨hhome, rfl⟩, fun _ => ?_⟩)
      rw [Scopes.typeAt_home hhome, hold]
    · exact .inl (if_neg hx)
  | initialise x =>
    rw [Scopes.typeAt_setType]
    by_cases hx : g.scopes.home? x .variables = some n ∧ y = x
    · obtain ⟨hhome, rfl⟩ := hx
      exact .inr (.inr ⟨rfl, hhome, if_pos ⟨hhome, rfl⟩, nofun⟩)
    · exact .inl (if_neg hx)
  | @returnFirst f hflag hold => exact .inl (congrFun (congrFun (g.scopes.typeAt_setReturns f g.type) n) y)
  | _ => exact .inl rfl

theorem Takes.returnsAt_cases {s : Step} {g g' : Stage} (h : s.Takes g g') (n : Nat) (y : String) :
    g'.scopes.returnsAt n y = g.scopes.returnsAt n y ∨
      g.scopes.returnsAt n y = none ∧ g'.scopes.returnsAt n y = some (some Ty.nil) ∨
      s = .giveBack (some y) false ∧ g.scopes.home? y .functions = some n ∧
        g.scopes.returnsAt n y = some (some Ty.nil) ∧ g'.scopes.returnsAt n y = some g.type := by
  cases h with
  | enter scope => exact .inl (congrFun (congrFun (g.scopes.note_enter rfl scope) n) y)
  | exit => exact .inl (congrFun (congrFun g.scopes.note_exit n) y)
  | @declare what x hfree hnew =>
    cases what with
    | function =>
      rw [Scopes.returnsAt_declared hnew]
      by_cases hx : g.scopes.sketch.here = n ∧ y = x
      · obtain ⟨rfl, rfl⟩ := hx
        exact .inr (.inl ⟨(Scopes.note_here hnew).2, if_pos ⟨rfl, rfl⟩⟩)
      · exact .inl (if_neg hx)
    | _ => exact .inl (congrFun (congrFun (Scopes.returnsAt_declared_variable hnew rfl) n) y)
  | bind f keys => exact .inl (congrFun (congrFun (g.scopes.returnsAt_setParams f keys) n) y)
  | @assignFirst x hold => exact .inl (congrFun (congrFun (g.scopes.returnsAt_setType x g.type) n) y)
  | initialise x => exact .inl (congrFun (congrFun (g.scopes.returnsAt_setType x g.type) n) y)
  | @returnFirst f hflag hold =>
    rw [Scopes.returnsAt_setReturns]
    by_cases hf : g.scopes.home? f .functions = some n ∧ y = f
    · obtain ⟨hhome, rfl⟩ := hf
      refine .inr (.inr ⟨rfl, hhome, ?_, if_pos ⟨hhome, rfl⟩⟩)
      rw [Scopes.returnsAt_home hhome, hold]
    · exact .inl (if_neg hf)
  | _ => exact .inl rfl

end Step

end CompiScript
