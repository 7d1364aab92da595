import CompiScript.Proofs.Parameters.Calm

namespace CompiScript

open Syntax

structure Headed (f : String) (noted : Option ParamList) (names : List String) (m : Nat) (s : Scopes) : Prop where
  params : s.paramsAt m f = some noted
  keys : s.keysAt s.sketch.here = some (names.map (·, .variables))
  nodup : names.Nodup
  home : s.home? f .functions = some m
  inside : s.sketch.here ≠ 0

namespace Headed

variable {f : String} {noted : Option ParamList} {names : List String} {m : Nat} {g g' : Stage}

theorem enter (s : Scopes) (f scope : String) :
    Headed f none [] s.sketch.here ((s.declared .function f).enter scope) where
  params := (congrFun (congrFun ((s.declared .function f).note_enter rfl scope) _) f).trans (s.paramsAt_declared_self f)
  keys := by
    rw [Scopes.keysAt, List.getElem?_map, Scopes.tables_here]
    rfl
  nodup := .nil
  home := s.home?_declared .function f
  inside := Nat.ne_of_gt (Nat.lt_of_le_of_lt (Nat.zero_le _) (Outline.numbers_lt (.head _)))

theorem not_mem {s : Scopes} (h : Headed f noted names m s) {x : String} (hx : s.current.table.lookup x = none) :
    x ∉ names := by
  have hkeys := h.keys
  rw [Scopes.keysAt, List.getElem?_map, s.tables_here] at hkeys
  have hnames := congrArg (List.map Prod.fst) (Option.some.inj hkeys)
  rw [Table.keys_names, List.map_map] at hnames
  have hmem := Table.not_mem_names hx
  rw [hnames] at hmem
  simpa using hmem

theorem declare {x : String} (h : Headed f noted names m g.scopes)
    (hrun : (Step.declare .parameter x).run g = .ok g') : Headed f noted (names ++ [x]) m g'.scopes := by
  cases Step.run_takes hrun with
  | declare hfree hnew =>
    refine ⟨Scopes.paramsAt_declared h.params hnew _, ?_, ?_, Scopes.home?_declared_other hnew hfree (by decide) h.home,
      h.inside⟩
    · refine (Scopes.keysAt_declared hnew .parameter g.scopes.sketch.here).trans ?_
      rw [if_pos rfl, h.keys, List.map_append]
      rfl
    · rw [List.nodup_append]
      refine ⟨h.nodup, by simp, ?_⟩
      rintro y hy z hz rfl
      rw [List.mem_singleton.mp hz] at hy
      exact h.not_mem hnew hy

theorem declareAll {xs : List Name} (h : Headed f noted names m g.scopes)
    (hrun : execute (xs.map fun x => Step.declare .parameter x.text) g = (none, g')) :
    Headed f noted (names ++ xs.map Name.text) m g'.scopes := by
  induction xs generalizing names g with
  | nil =>
    cases hrun
    simpa using h
  | cons x xs ih =>
    obtain ⟨g₁, hx, hrest⟩ := execute_cons_ok hrun
    simpa using ih (h.declare hx) hrest

theorem bind {keys : List String} (h : Headed f noted names m g.scopes) (hrun : (Step.bind f keys).run g = .ok g') :
    Headed f (some (.keyed keys)) names m g'.scopes := by
  have hsketch := Step.run_sketch hrun
  have hhome := Scopes.home?_congr hsketch f (c := .functions) (by decide)
  cases hrun
  refine ⟨?_, ?_, h.nodup, hhome.trans h.home, ?_⟩
  · refine (g.scopes.paramsAt_setParams f keys m f).trans ?_
    rw [if_pos ⟨h.home, rfl⟩]
  · refine (g.scopes.keysAt_setParams f keys _).trans ?_
    rw [hsketch]
    exact h.keys
  · rw [hsketch]
    exact h.inside

theorem mirrored {s : Scopes} (h : Headed f noted names m s) :
    Mirrored f noted names m s.sketch.here (some 0) none s :=
  ⟨h.params, h.keys, fun _ => ⟨h.home, nofun⟩, rfl⟩

end Headed

section Heading

variable {name : Name} {params : Option Params} {g g' : Stage}

theorem heading_name (h : execute (Place.heading name params) g = (none, g')) :
    g'.scopes.current.name = "Function '" ++ name.text ++ "'" := by
  have hsketch := execute_sketch h
  rw [Place.heading, sketchAll, sketchAll, Params.sketchAll_steps] at hsketch
  have hcurrent := congrArg Sketch.current hsketch
  injection hcurrent

def Syntax.Params.texts (params : Option Params) : List String :=
  (params.map Params.names).getD [] |>.map Name.text

theorem heading_headed (h : execute (Place.heading name params) g = (none, g')) :
    Headed name.text (params.map fun ps => .keyed (ps.names.map Name.text)) (Params.texts params) g.scopes.sketch.here
      g'.scopes := by
  obtain ⟨g₁, hdeclare, hrest⟩ := execute_cons_ok h
  obtain ⟨g₂, henter, hparams⟩ := execute_cons_ok hrest
  obtain ⟨-, rfl⟩ := Step.run_declare_ok hdeclare
  cases henter
  have hheaded := Headed.enter g.scopes name.text ("Function '" ++ name.text ++ "'")
  cases params with
  | none =>
    cases hparams
    exact hheaded
  | some ps =>
    obtain ⟨g₃, hnames, hbind⟩ := execute_append_ok hparams
    obtain ⟨g₄, hrun, hnil⟩ := execute_cons_ok hbind
    cases hnil
    exact (hheaded.declareAll hnames).bind hrun

end Heading

/-- The function of the one scope lists the variables of the other, which are its parameters in their order. -/
def Scopes.Mirrors (s : Scopes) (m n : Nat) (f : String) (params : Option Params) : Prop :=
  ∃ outer inner symbol, s.tables[m]? = some outer ∧ s.tables[n]? = some inner ∧
    outer.find? f (some .functions) = some symbol ∧
    match params with
    | none => symbol.params? = none ∧ inner = []
    | some ps => symbol.params? = some (.keyed inner.names) ∧ inner.names = ps.names.map Name.text ∧
        inner.map (fun e => e.2.entity) = ((ParamList.keyed inner.names).types inner).map Entity.variable

section Mirrors

variable {f : String} {names : List String} {m n : Nat}

theorem Table.names_of_keys {t : Table} (h : t.keys = names.map (·, .variables)) : t.names = names := by
  rw [← t.keys_names, h, List.map_map]
  exact List.map_id _

theorem Table.map_entity_of_keys {t : Table} (h : t.keys = names.map (·, .variables)) (hnames : names.Nodup) :
    t.map (fun e => e.2.entity) = ((ParamList.keyed t.names).types t).map Entity.variable := by
  rw [ParamList.types, Table.names, List.map_map, List.map_map]
  refine List.map_congr_left fun e he => ?_
  have hlookup : t.lookup e.1 = some e.2 := by
    refine lookup_eq_some_of_mem ?_ he
    rw [← Table.names_of_keys h] at hnames
    exact hnames
  have hnarrow : e.2.entity.narrowest = .variables := by
    have hkey : (e.1, e.2.entity.narrowest) ∈ t.keys := List.mem_map_of_mem he
    rw [h] at hkey
    obtain ⟨x, -, hx⟩ := List.mem_map.mp hkey
    exact (congrArg Prod.snd hx).symm
  have hbelongs := (e.2.entity.belongs_iff (c := .variables) (by decide)).mpr hnarrow
  simp only [Function.comp_apply, find?, hlookup, if_pos hbelongs, Option.bind_some, Symbol.type?]
  cases hentity : e.2.entity with
  | «variable» type => rfl
  | _ =>
    rw [hentity] at hbelongs
    cases hbelongs

theorem Mirrored.mirrors {params : Option Params} {depth : Option Nat} {r : Option String} {s : Scopes}
    (hnodup : (Params.texts params).Nodup)
    (h : Mirrored f (params.map fun ps => .keyed (ps.names.map Name.text)) (Params.texts params) m n depth r s) :
    s.Mirrors m n f params := by
  obtain ⟨outer, symbol, houter, hsymbol, hnoted⟩ := Scopes.tables_of_paramsAt h.params
  have hinner := h.keys
  rw [Scopes.keysAt, List.getElem?_map] at hinner
  obtain ⟨inner, hinner, hkeys⟩ := Option.map_eq_some_iff.mp hinner
  refine ⟨outer, inner, symbol, houter, hinner, hsymbol, ?_⟩
  cases params with
  | none => exact ⟨hnoted, List.map_eq_nil_iff.mp hkeys⟩
  | some ps =>
    have hnames : inner.names = ps.names.map Name.text := Table.names_of_keys hkeys
    refine ⟨?_, hnames, Table.map_entity_of_keys hkeys hnodup⟩
    rw [hnames]
    exact hnoted

end Mirrors

/-- From the place where the parameters of a function have been declared, at every point of the analysis of a program
and where it ends, be it with an error, the symbol of the function lists the variables of its scope in the order in which
they were declared, so that it has their types; without parameters it has no list, and the scope is empty. -/
theorem parameters_mirror_scope {text : String} {d : Derived} (h : parseText .program text = .ok d) :
    (∃ p : Program, p.tree = d.tree) ∧
    ∀ (p : Program) (s : AnalysisState) (pl : Place) (name : Name) (params : Option Params) (body : List Declaration)
      (g₀ g : Stage), p.tree = d.tree → p.Contains pl → pl.part = .function name params body →
      execute pl.before ⟨s.standing, none⟩ = (none, g₀) → execute (Place.heading name params) g₀ = (none, g) →
      g.scopes.current.name = "Function '" ++ name.text ++ "'" ∧
      (∀ steps rest, p.steps = pl.before ++ Place.heading name params ++ steps ++ rest →
        (execute steps g).2.scopes.Mirrors g₀.scopes.sketch.here g.scopes.sketch.here name.text params) ∧
      (s.analyse d.tree).2.scopes.Mirrors g₀.scopes.sketch.here g.scopes.sketch.here name.text params := by
  refine ⟨parseText_program h, ?_⟩
  intro p s pl name params body g₀ g hp hpl hpart hbefore hheading
  have hsteps := Place.steps_eq_heading hpl hpart
  have hpoint : ∀ steps rest, pl.remainder name body = steps ++ rest →
      (execute steps g).2.scopes.Mirrors g₀.scopes.sketch.here g.scopes.sketch.here name.text params := by
    intro steps rest hremainder
    have hcalm := Place.calm_remainder hpl name body none
    rw [hremainder] at hcalm
    have hheaded := heading_headed hheading
    obtain ⟨_, _, hmirrored⟩ := execute_mirrored hheaded.inside hcalm.left hheaded.mirrored
    exact hmirrored.mirrors hheaded.nodup
  refine ⟨heading_name hheading, ?_, ?_⟩
  · intro steps rest hsplit
    rw [hsteps, List.append_assoc _ steps rest] at hsplit
    exact hpoint steps rest (List.append_cancel_left hsplit)
  · have hscopes : (s.analyse p.tree).2.scopes = (execute p.steps ⟨s.standing, none⟩).2.scopes :=
      congrArg Standing.scopes (analyse_standing s p)
    rw [← hp, hscopes, hsteps, execute_append, execute_trans hbefore hheading]
    exact hpoint _ [] (List.append_nil _).symm

def assignedInside : List Declaration :=
  [.function (.named "g") none
      [.statement (.expression (.assignment (.assign none (.named "a")
        (.operation (.ofUnary (.call (.primary (.number "1") [])))))))],
    .statement (.expression (.ofPrimary (.name (.named "x"))))]

def ownerOfInside : Declaration :=
  .function (.named "f") (some ⟨.named "a", []⟩) assignedInside

theorem parameters_mirror_scope_of_inside :
    ∃ d, parseText .program "fun f(a) { fun g() { a = 1; } x; }" = .ok d ∧
      (AnalysisState.start.outcome d.tree).1 = some (.undeclared "x") ∧
      (AnalysisState.start.analyse d.tree).2.scopes.Mirrors 0 1 "f" (some ⟨.named "a", []⟩) ∧
      (AnalysisState.start.analyse d.tree).2.scopes.tables[0]?.bind (·.params "f") =
        some (some (.keyed ["a"])) ∧
      (AnalysisState.start.analyse d.tree).2.scopes.tables[1]?.map (ParamList.keyed ["a"]).types =
        some [some Ty.num] := by
  obtain ⟨d, hd, htree⟩ :=
    exists_derived_tree "fun f(a) { fun g() { a = 1; } x; }" ⟨[ownerOfInside]⟩ (by decide +kernel)
  have hpl : Program.Contains ⟨[ownerOfInside]⟩ ⟨ownerOfInside, none, none, [], [], []⟩ :=
    @Program.Contains.top _ [] [] _ rfl
  let g := (execute (Place.heading (.named "f") (some ⟨.named "a", []⟩)) .start).2
  have hheading : execute (Place.heading (.named "f") (some ⟨.named "a", []⟩)) .start = (none, g) :=
    Prod.ext (by decide +kernel) rfl
  obtain ⟨-, -, hend⟩ :=
    (parameters_mirror_scope hd).2 ⟨[ownerOfInside]⟩ .start _ _ _ _ .start g htree hpl rfl rfl hheading
  refine ⟨d, hd, ?_, hend, ?_, ?_⟩
  · rw [← htree]
    decide +kernel
  · rw [← htree]
    decide +kernel
  · rw [← htree]
    decide +kernel

end CompiScript
