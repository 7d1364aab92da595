import CompiScript.Proofs.Failures.Fits

namespace CompiScript

open Syntax

namespace Syntax.Program.Reaches

variable {p : Program} {s : Step} {g : Stage}

theorem fits (h : p.Reaches s g) : s.Fits g.scopes.sketch := by
  obtain ⟨before, after, hsteps, hrun⟩ := h
  -- What fits is said by the syntax, for the sketch that the steps before leave.
  have hfit : FitAll p.steps .start := Declaration.fitAll_stepsAll (Sketch.owns_none _) p.body
  rw [hsteps] at hfit
  rw [execute_sketch hrun]
  exact (fitAll_append.mp hfit).2.1

theorem plain (h : p.Reaches s g) : g.scopes.sketch.Plain := by
  obtain ⟨before, after, -, hrun⟩ := h
  rw [execute_sketch hrun]
  refine sketchAll_plain before ?_
  intro o ho key hkey
  rw [List.mem_singleton.mp ho] at hkey
  cases hkey

theorem distinct (h : p.Reaches s g) : g.scopes.sketch.Distinct := by
  obtain ⟨before, after, -, hrun⟩ := h
  exact execute_distinct hrun ⟨⟨List.nodup_nil, trivial⟩, trivial⟩

theorem find?_function (h : p.Reaches s g) {f : String} (hf : s.function? = some f) :
    (g.scopes.find? f (some .functions)).isSome = true := by
  refine Scopes.find?_of_has (by decide) h.distinct ?_
  have hfits := h.fits
  cases s with
  | bind function _ => cases hf; exact hfits
  | giveBack owner bare => cases hf; exact hfits
  | _ => cases hf

theorem isClash {what : Declared} {x : String} (h : p.Reaches (.declare what x) g)
    (hfree : g.scopes.find? x (some what.category) = none)
    (htaken : (g.scopes.current.table.lookup x).isSome = true) : (Step.declare what x).IsClash g := by
  obtain ⟨old, hold⟩ := Option.isSome_iff_exists.mp htaken
  have hkey : (x, old.entity.narrowest) ∈ g.scopes.current.table.keys :=
    mem_of_lookup_eq_some (by rw [Table.keys_lookup, hold]; rfl)
  have hne : old.entity.narrowest ≠ what.category := by
    intro heq
    have hc : what.category ≠ .objects := by
      cases what <;> decide
    have hfound : (g.scopes.find? x (some what.category)).isSome = true := (findIn_isSome _ x hc).mpr
      ⟨g.scopes.current, .head _, by rw [Table.keys_lookup, hold, Option.map_some, heq]⟩
    rw [hfree] at hfound
    cases hfound
  have hplain := h.plain _ (.head _) _ hkey
  have hfits := h.fits
  refine ⟨?_, ⟨old, hold, ?_⟩, hfree⟩
  · -- The scope of a parameter holds variables only, and these would have been found.
    rintro rfl
    exact hne (hfits _ hkey)
  · refine (old.entity.belongs_iff (by cases what <;> decide)).mpr ?_
    cases what with
    | «variable» => exact hplain.resolve_left hne
    | parameter => exact hplain.resolve_left hne
    | function => exact hplain.resolve_right hne

theorem error_cases (h : p.Reaches s g) {e : AnalysisError} (herror : s.run g = .error e) :
    e.kind = .objection ∧ e.isProper = true ∨
      e.kind = .absence ∧ (e = .absent "name" ∨ e = .absent "return_type") ∧ s.IsStrayReturn g ∨
      e.kind = .misuse ∧ e = .symbol .taken ∧ s.IsClash g := by
  rcases Step.run_error herror with hproper | ⟨habsent, hstray⟩ | ⟨what, x, rfl, rfl, hfree, htaken⟩
  · exact .inl ⟨AnalysisError.kind_of_isProper hproper, hproper⟩
  · have hkind : e.kind = .absence := by
      rcases habsent with rfl | rfl <;> rfl
    exact .inr (.inl ⟨hkind, habsent, hstray⟩)
  · exact .inr (.inr ⟨rfl, rfl, h.isClash hfree htaken⟩)

end Syntax.Program.Reaches

theorem execute_error_iff {p : Program} {e : AnalysisError} :
    (execute p.steps .start).1 = some e ↔ ∃ s g, p.Reaches s g ∧ s.run g = .error e := by
  constructor
  · intro h
    obtain ⟨before, s, after, hsteps, hrun, herror⟩ :=
      execute_eq_some.mp (show execute p.steps .start = (some e, _) from Prod.ext h rfl)
    exact ⟨s, _, ⟨before, after, hsteps, hrun⟩, herror⟩
  · rintro ⟨s, g, ⟨before, after, hsteps, hrun⟩, herror⟩
    rw [execute_eq_some.mpr ⟨before, s, after, hsteps, hrun, herror⟩]

/-- The analysis of a program fails exactly with what its first refused step is refused for. It
objects, it misses the function of a stray `return`, or it meets a clash of names, and it fails in no
other way; every function that a step speaks of is found. -/
theorem analysis_breaks_off {text : String} {d : Derived} (h : parseText .program text = .ok d) :
    ∃ p : Program, p.tree = d.tree ∧
      (∀ e, (AnalysisState.start.outcome d.tree).1 = some e ↔
        ∃ s g, p.Reaches s g ∧ s.run g = .error e) ∧
      (∀ e, (AnalysisState.start.outcome d.tree).1 = some e →
        e.kind = .objection ∧ e.isProper = true ∨
        e.kind = .absence ∧ (e = .absent "name" ∨ e = .absent "return_type") ∨
        e.kind = .misuse ∧ e = .symbol .taken) ∧
      ((∃ e, (AnalysisState.start.outcome d.tree).1 = some e ∧ e.kind = .absence) ↔
        ∃ s g, p.Reaches s g ∧ s.IsStrayReturn g) ∧
      ((∃ e, (AnalysisState.start.outcome d.tree).1 = some e ∧ e.kind = .misuse) ↔
        ∃ s g, p.Reaches s g ∧ s.IsClash g) ∧
      ∀ s g f, p.Reaches s g → s.function? = some f →
        (g.scopes.find? f (some .functions)).isSome = true := by
  obtain ⟨p, hp⟩ := parseText_program h
  have houtcome : ∀ e, (AnalysisState.start.outcome d.tree).1 = some e ↔
      ∃ s g, p.Reaches s g ∧ s.run g = .error e := by
    intro e
    rw [← hp, outcome_program]
    exact execute_error_iff
  refine ⟨p, hp, houtcome, ?_⟩
  simp only [houtcome]
  refine ⟨?_, ?_, ?_, fun s g f hreach => hreach.find?_function⟩
  · rintro e ⟨s, g, hreach, herror⟩
    rcases hreach.error_cases herror with hproper | ⟨hkind, habsent, -⟩ | ⟨hkind, htaken, -⟩
    · exact .inl hproper
    · exact .inr (.inl ⟨hkind, habsent⟩)
    · exact .inr (.inr ⟨hkind, htaken⟩)
  · constructor
    · rintro ⟨e, ⟨s, g, hreach, herror⟩, hkind⟩
      rcases hreach.error_cases herror with ⟨hother, -⟩ | ⟨-, -, hstray⟩ | ⟨hother, -⟩
      · cases hother.symm.trans hkind
      · exact ⟨s, g, hreach, hstray⟩
      · cases hother.symm.trans hkind
    · rintro ⟨s, g, hreach, hstray⟩
      obtain ⟨e, herror, hkind⟩ := Step.run_of_isStrayReturn hstray
      exact ⟨e, ⟨s, g, hreach, herror⟩, hkind⟩
  · constructor
    · rintro ⟨e, ⟨s, g, hreach, herror⟩, hkind⟩
      rcases hreach.error_cases herror with ⟨hother, -⟩ | ⟨hother, -⟩ | ⟨-, -, hclash⟩
      · cases hother.symm.trans hkind
      · cases hother.symm.trans hkind
      · exact ⟨s, g, hreach, hclash⟩
    · rintro ⟨s, g, hreach, hclash⟩
      obtain ⟨e, herror, hkind⟩ := Step.run_of_isClash hclash
      exact ⟨e, ⟨s, g, hreach, herror⟩, hkind⟩

theorem analysis_breaks_off_twice :
    (∃ d, parseText .program "fun f() { { return 1; } }" = .ok d ∧
      ∃ p : Program, p.tree = d.tree ∧ ∃ s g, p.Reaches s g ∧ s.IsStrayReturn g) ∧
    ∃ d, parseText .program "var f; fun f() { }" = .ok d ∧
      ∃ p : Program, p.tree = d.tree ∧ ∃ s g, p.Reaches s g ∧ s.IsClash g := by
  constructor
  · obtain ⟨d, hd, herror⟩ := exists_derived "fun f() { { return 1; } }"
      (fun d => (AnalysisState.start.outcome d.tree).1 = some (.absent "return_type")) (by decide +kernel)
    obtain ⟨p, hp, -, -, hstray, -⟩ := analysis_breaks_off hd
    exact ⟨d, hd, p, hp, hstray.mp ⟨_, of_decide_eq_true herror, rfl⟩⟩
  · obtain ⟨d, hd, herror⟩ := exists_derived "var f; fun f() { }"
      (fun d => (AnalysisState.start.outcome d.tree).1 = some (.symbol .taken)) (by decide +kernel)
    obtain ⟨p, hp, -, -, -, hclash, -⟩ := analysis_breaks_off hd
    exact ⟨d, hd, p, hp, hclash.mp ⟨_, of_decide_eq_true herror, rfl⟩⟩

end CompiScript
