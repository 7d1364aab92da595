import CompiScript.Proofs.Effects.Homes

namespace CompiScript

open Syntax

namespace Ty

def IsProper : Option Ty → Prop
  | some (.loose _) => False
  | _ => True

theorem eq_of_show? {t u : Option Ty} (ht : IsProper t) (hu : IsProper u) (h : show? t = show? u) : t = u := by
  rcases t with _ | t
  · rcases u with _ | u
    · rfl
    · cases u with
      | loose d => cases hu
      | proper d => cases d <;> revert h <;> decide
  · cases t with
    | loose d => cases ht
    | proper d =>
      rcases u with _ | u
      · cases d <;> revert h <;> decide
      · cases u with
        | loose e => cases hu
        | proper e => cases d <;> cases e <;> revert h <;> decide

end Ty

namespace Syntax

theorem Chain.type_cases {α : Type} {operand : α → Except AnalysisError (Option Ty)}
    {check : Option Ty → Kind → Option Ty → Except AnalysisError Unit} {result : Ty} {c : Chain α} {t : Option Ty}
    (h : c.type operand check result = .ok t) : t = some result ∨ operand c.first = .ok t := by
  obtain ⟨a, rest⟩ := c
  cases rest with
  | nil => exact .inr h
  | cons p rest =>
    obtain ⟨left, -, hmore⟩ := bind_eq_ok h
    obtain ⟨-, -, hresult⟩ := bind_eq_ok hmore
    cases hresult
    exact .inl rfl

variable {g : Standing}

theorem Unary.type_isProper (hg : ∀ x symbol, g.scopes.find? x (some .variables) = some symbol → Ty.IsProper symbol.type?)
    {u : Unary} {t : Option Ty} (h : u.type g = .ok t) : Ty.IsProper t := by
  have hname : ∀ x : Name, nameType g x = .ok t → Ty.IsProper t := by
    intro x hx
    simp only [nameType] at hx
    split at hx
    · cases hx
    · next symbol hfound =>
      cases hx
      exact hg x.text symbol hfound
  cases u with
  | signed operator operand => cases h; trivial
  | call c =>
    cases c with
    | function parts => cases h; trivial
    | primary callee suffixes =>
      cases callee with
      | name x => exact hname x h
      | inherited x => exact hname x h
      | _ => cases h; trivial

theorem LogicOr.type_isProper
    (hg : ∀ x symbol, g.scopes.find? x (some .variables) = some symbol → Ty.IsProper symbol.type?)
    {e : LogicOr} {t : Option Ty} (h : e.type g = .ok t) : Ty.IsProper t := by
  rcases Chain.type_cases h with rfl | h
  · trivial
  rcases Chain.type_cases h with rfl | h
  · trivial
  rcases Chain.type_cases h with rfl | h
  · trivial
  rcases Chain.type_cases h with rfl | h
  · trivial
  rcases Chain.type_cases h with rfl | h
  · trivial
  rcases Chain.type_cases h with rfl | h
  · trivial
  exact Unary.type_isProper hg h

end Syntax

structure Stage.Proper (g : Stage) : Prop where
  type : Ty.IsProper g.type
  types : ∀ n x t, g.scopes.typeAt n x = some t → Ty.IsProper t
  returns : ∀ n x t, g.scopes.returnsAt n x = some t → Ty.IsProper t

theorem Stage.start_proper : Stage.start.Proper := by
  have hempty : ∀ (view : Table → Notes (Option Ty)) n x, view [] = (fun _ => none) → Stage.start.scopes.note view n x = none := by
    intro view n x hview
    cases n <;> simp [Scopes.note, Stage.start, AnalysisState.start, AnalysisState.standing, Scopes.start, Scopes.tables,
      Scopes.tree, Scopes.closeAll, Frame.close, Frame.opened, Scope.tables, Scope.tablesAll, hview]
  refine ⟨trivial, ?_, ?_⟩
  · intro n x t ht
    rw [Scopes.typeAt, hempty _ n x rfl] at ht
    cases ht
  · intro n x t ht
    rw [Scopes.returnsAt, hempty _ n x rfl] at ht
    cases ht

theorem Step.run_proper {s : Step} {g g' : Stage} (h : s.run g = .ok g') (hg : g.Proper) : g'.Proper := by
  have htakes := run_takes h
  refine ⟨?_, ?_, ?_⟩
  · have hfound : ∀ x symbol, g.scopes.find? x (some .variables) = some symbol → Ty.IsProper symbol.type? := by
      intro x symbol hsymbol
      obtain ⟨n, hn⟩ := Scopes.home?_of_find? (Option.isSome_iff_exists.mpr ⟨symbol, hsymbol⟩)
      have htype := Scopes.typeAt_home hn
      rw [hsymbol] at htype
      exact hg.types n x _ htype
    cases htakes with
    | weigh ht => exact LogicOr.type_isProper hfound ht
    | assignFirst hold => trivial
    | assignAgain hold hshow => trivial
    | _ => exact hg.type
  · intro n x t ht
    rcases htakes.typeAt_cases n x with hsame | ⟨-, hnew⟩ | ⟨-, -, hnew, -⟩
    · exact hg.types n x t (hsame.symm.trans ht)
    · rw [← Option.some.inj (hnew.symm.trans ht)]
      trivial
    · rw [← Option.some.inj (hnew.symm.trans ht)]
      exact hg.type
  · intro n x t ht
    rcases htakes.returnsAt_cases n x with hsame | ⟨-, hnew⟩ | ⟨-, -, -, hnew⟩
    · exact hg.returns n x t (hsame.symm.trans ht)
    · rw [← Option.some.inj (hnew.symm.trans ht)]
      trivial
    · rw [← Option.some.inj (hnew.symm.trans ht)]
      exact hg.type

theorem execute_proper {steps : List Step} {g : Stage} (h : execute steps .start = (none, g)) : g.Proper :=
  execute_induction (fun _ _ _ => Step.run_proper) h Stage.start_proper

end CompiScript
