import CompiScript.Proofs.Writing.Observing

namespace CompiScript

def Symbol.withoutTypes (s : Symbol) : Symbol :=
  match s.entity with
  | .variable _ => { s with entity := .variable none }
  | _ => s

def Table.withoutTypes (t : Table) : Table :=
  t.map fun e => (e.1, e.2.withoutTypes)

def Frame.withoutTypes (f : Frame) : Frame :=
  { f with table := f.table.withoutTypes }

def Scopes.withoutTypes (s : Scopes) : Scopes :=
  { s with current := s.current.withoutTypes, outer := s.outer.map Frame.withoutTypes }

theorem Symbol.withoutTypes_setType {s : Symbol} (h : s.entity.belongs .variables = true) (t : Option Ty) :
    (s.setType t).withoutTypes = s.withoutTypes := by
  obtain ⟨name, entity, noted⟩ := s
  cases entity <;> first | rfl | cases h

theorem Table.withoutTypes_put {t : Table} {x : String} {old new : Symbol} (h : t.lookup x = some old)
    (hnew : new.withoutTypes = old.withoutTypes) : (t.put x new).withoutTypes = t.withoutTypes := by
  obtain ⟨left, right, rfl, hx⟩ := Table.exists_append_of_lookup h
  rw [Table.put_append hx]
  simp [withoutTypes, hnew]

theorem changeIn_withoutTypes {x : String} {c : Category} {change : Symbol → Symbol}
    (h : ∀ s : Symbol, s.entity.belongs c = true → (change s).withoutTypes = s.withoutTypes) (fs : List Frame) :
    (changeIn x c change fs).map Frame.withoutTypes = fs.map Frame.withoutTypes := by
  induction fs with
  | nil => rfl
  | cons f fs ih =>
    rw [changeIn]
    cases hf : f.table.find? x (some c) with
    | none => simp only [List.map_cons, ih]
    | some s =>
      obtain ⟨hlookup, hbelongs⟩ := Table.find?_eq_some hf
      simp only [List.map_cons, Frame.withoutTypes, Table.withoutTypes_put hlookup (h s hbelongs)]

theorem Scopes.withoutTypes_setType (s : Scopes) (x : String) (t : Option Ty) :
    (s.setType x t).withoutTypes = s.withoutTypes := by
  have hchain := changeIn_withoutTypes (x := x) (fun a ha => Symbol.withoutTypes_setType ha t) s.chain
  rw [setType]
  cases hfs : changeIn x .variables (fun a => a.setType t) s.chain with
  | nil => rw [hfs] at hchain; cases hchain
  | cons f fs =>
    rw [hfs, chain, List.map_cons, List.map_cons, List.cons.injEq] at hchain
    simp only [withChain, withoutTypes, hchain.1, hchain.2]

/-- Nothing changes but the types of the variables at the given places, which have none before. -/
structure Standing.Retyped (places : List (Nat × String)) (g g' : Standing) : Prop where
  inPrint : g'.inPrint = g.inPrint
  inReturn : g'.inReturn = g.inReturn
  withoutTypes : g'.scopes.withoutTypes = g.scopes.withoutTypes
  typeAt : ∀ n x, (n, x) ∉ places → g'.scopes.typeAt n x = g.scopes.typeAt n x
  untyped : ∀ n x, (n, x) ∈ places → g.scopes.typeAt n x = some none

namespace Standing.Retyped

variable {places more : List (Nat × String)} {g g₁ g₂ : Standing}

theorem refl (g : Standing) : g.Retyped [] g :=
  ⟨rfl, rfl, rfl, fun _ _ _ => rfl, nofun⟩

theorem trans (h : g.Retyped places g₁) (h' : g₁.Retyped more g₂) : g.Retyped (places ++ more) g₂ where
  inPrint := h'.inPrint.trans h.inPrint
  inReturn := h'.inReturn.trans h.inReturn
  withoutTypes := h'.withoutTypes.trans h.withoutTypes
  typeAt n x hx := by
    rw [List.mem_append, not_or] at hx
    exact (h'.typeAt n x hx.2).trans (h.typeAt n x hx.1)
  untyped n x hx := by
    by_cases hold : (n, x) ∈ places
    · exact h.untyped n x hold
    · rw [← h.typeAt n x hold]
      exact h'.untyped n x ((List.mem_append.mp hx).resolve_left hold)

theorem setType (g : Standing) {x : String} (t : Option Ty)
    (hold : (g.scopes.find? x (some .variables)).bind Symbol.type? = none) :
    ∃ places : List (Nat × String), places.length ≤ 1 ∧
      g.Retyped places { g with scopes := g.scopes.setType x t } := by
  refine ⟨(g.scopes.home? x .variables).toList.map (·, x), ?_, rfl, rfl, g.scopes.withoutTypes_setType x t, ?_, ?_⟩
  · cases g.scopes.home? x .variables <;> simp
  · intro n y hy
    rw [Scopes.typeAt_setType, if_neg]
    rintro ⟨hhome, rfl⟩
    simp [hhome] at hy
  · intro n y hy
    simp only [List.mem_map, Option.mem_toList, Prod.mk.injEq] at hy
    obtain ⟨m, hm, rfl, rfl⟩ := hy
    rw [Scopes.typeAt_home hm, hold]

end Standing.Retyped

namespace Analysis

def Retypes {α : Type} (k : Nat) (a : Analysis α) : Prop :=
  ∀ g, ∃ r g' places, Runs g a r g' ∧ places.length ≤ k ∧ g.Retyped places g'

namespace Retypes

variable {α β : Type} {a : Analysis α} {k l : Nat}

theorem mono (h : Retypes k a) (hkl : k ≤ l) : Retypes l a := by
  intro g
  obtain ⟨r, g', places, hrun, hplaces, hg⟩ := h g
  exact ⟨r, g', places, hrun, Nat.le_trans hplaces hkl, hg⟩

theorem bind {next : α → Analysis β} (ha : Retypes k a) (hnext : ∀ v, Retypes l (next v)) :
    Retypes (k + l) (a >>= next) := by
  intro g
  obtain ⟨r, g₁, places, hrun, hplaces, hg⟩ := ha g
  cases r with
  | error e => exact ⟨.error e, g₁, places, hrun.bind_error, Nat.le_trans hplaces (Nat.le_add_right k l), hg⟩
  | ok v =>
    obtain ⟨r, g₂, more, hrun', hmore, hg'⟩ := hnext v g₁
    refine ⟨r, g₂, places ++ more, hrun.bind_ok hrun', ?_, hg.trans hg'⟩
    rw [List.length_append]
    exact Nat.add_le_add hplaces hmore

theorem of_observes (h : Observes a) : Retypes k a := by
  intro g
  obtain ⟨r, hr⟩ := h g
  exact ⟨r, g, [], hr, Nat.zero_le k, .refl g⟩

theorem observes_bind {next : α → Analysis β} (ha : Observes a) (hnext : ∀ v, Retypes l (next v)) :
    Retypes l (a >>= next) :=
  ((of_observes (k := 0) ha).bind hnext).mono (Nat.le_of_eq (Nat.zero_add l))

theorem then_observes {next : α → Analysis β} (ha : Retypes k a) (hnext : ∀ v, Observes (next v)) :
    Retypes k (a >>= next) :=
  ha.bind (l := 0) fun v => of_observes (hnext v)

theorem remark_bind {text : String} {next : Unit → Analysis α} (hnext : Retypes k (next ())) :
    Retypes k (Analysis.remark text >>= next) :=
  observes_bind (.remark text) fun _ => hnext

theorem throw_bind {e : AnalysisError} {next : α → Analysis β} :
    Retypes k ((MonadExcept.throw e : Analysis α) >>= next) :=
  fun g => ⟨.error e, g, [], (Runs.throw e).bind_error, Nat.zero_le k, .refl g⟩

theorem typeOf {c : Child} (h : Retypes k (c.visit .alone)) : Retypes k (Analysis.typeOf c) :=
  h.then_observes fun v => .pure v.type?

theorem runFrom (h : Retypes k a) (s : AnalysisState) :
    ∃ places, places.length ≤ k ∧ s.standing.Retyped places (a.runFrom s).2.standing := by
  obtain ⟨r, g', places, hrun, hplaces, hg⟩ := h s.standing
  obtain ⟨s', hs, rfl⟩ := hrun s rfl
  rw [hs]
  exact ⟨places, hplaces, hg⟩

end Retypes

theorem assignTo_retypes (x : String) (given : Option Ty) : Retypes 1 (assignTo x given) := by
  intro g
  have hfollows := Syntax.assignTo_follows ⟨g, given⟩ x
  cases hrun : (Step.assign x).run ⟨g, given⟩ with
  | error e =>
    exact ⟨.error e, g, [], hfollows.error e ⟨g, given⟩ (by simp only [execute, hrun]), Nat.zero_le 1, .refl g⟩
  | ok g' =>
    obtain ⟨v, hv, -⟩ := hfollows.ok g' (execute_single hrun)
    cases Step.run_takes hrun with
    | assignFirst hold =>
      obtain ⟨places, hplaces, hg⟩ := Standing.Retyped.setType g given hold
      exact ⟨.ok v, _, places, hv, hplaces, hg⟩
    | assignAgain hold hshow => exact ⟨.ok v, _, [], hv, Nat.zero_le 1, .refl g⟩

end Analysis

namespace Tree

def isAssignment : Tree → Bool
  | node .assignment cs => cs.any fun t => t.isKind .identifier
  | _ => false

def assignments (t : Tree) : Nat :=
  t.subtrees.countP isAssignment

theorem assignments_node (r : Rule) (cs : List Tree) :
    (node r cs).assignments = (subtreesAll cs).countP isAssignment + if (node r cs).isAssignment then 1 else 0 := by
  rw [assignments, subtrees, List.countP_cons]

theorem assignments_le_of_mem {t : Tree} {cs : List Tree} (h : t ∈ cs) :
    t.assignments ≤ (subtreesAll cs).countP isAssignment := by
  induction cs with
  | nil => cases h
  | cons c cs ih =>
    rw [subtreesAll, List.countP_append]
    rcases List.mem_cons.mp h with rfl | hmem
    · exact Nat.le_add_right _ _
    · exact Nat.le_trans (ih hmem) (Nat.le_add_left _ _)

theorem assignments_le_node {t : Tree} {r : Rule} {cs : List Tree} (h : t ∈ cs) :
    t.assignments ≤ (node r cs).assignments := by
  rw [assignments_node]
  exact Nat.le_trans (assignments_le_of_mem h) (Nat.le_add_right _ _)

end Tree

namespace Analysis

theorem isAssignment_of_textOf? {cs : List Tree} {x : String}
    (h : textOf? .identifier (cs.map Tree.child) = some x) : (Tree.node .assignment cs).isAssignment = true := by
  obtain ⟨c, hc, -⟩ := List.mem_map.mp (List.mem_of_mem_head? h)
  obtain ⟨hmem, hkind⟩ := List.mem_filter.mp hc
  obtain ⟨t, ht, rfl⟩ := List.mem_map.mp hmem
  exact List.any_eq_true.mpr ⟨t, ht, hkind⟩

theorem assignment_retypes (cs : List Tree) (manner : Manner) :
    Retypes (Tree.node .assignment cs).assignments ((Tree.node .assignment cs).visit manner) := by
  rw [Tree.visit_node]
  refine .remark_bind ?_
  split
  · next x hx =>
    have hcount := Tree.assignments_node .assignment cs
    rw [if_pos (isAssignment_of_textOf? hx)] at hcount
    rw [hcount]
    refine .remark_bind (.observes_bind (.find? _ _) fun found => ?_)
    dsimp only
    split
    · exact .observes_bind .currentText fun _ => .throw_bind
    refine .observes_bind .currentText fun _ => .remark_bind ?_
    split
    · exact .throw_bind
    · next c hc =>
      obtain ⟨ts, hts, rfl⟩ := mem_of_rule? hc
      -- The value may be an assignment itself, and it is done before this one.
      have hvalue := (assignment_retypes ts .alone).mono (Tree.assignments_le_of_mem hts)
      exact (hvalue.typeOf.bind fun t => (assignTo_retypes x t).then_observes fun _ => .pure _)
  · next c _ hc =>
    obtain ⟨ts, -, rfl⟩ := mem_of_rule? hc
    exact .of_observes (.remark_bind (logicOr_observes ts .alone))
  · exact .of_observes (.pure _)
termination_by sizeOf cs
decreasing_by exact sizeOf_children hts

theorem expression_retypes (cs : List Tree) (manner : Manner) :
    Retypes (Tree.node .expression cs).assignments ((Tree.node .expression cs).visit manner) := by
  rw [Tree.visit_node]
  exact .remark_bind (part_visit (.of_observes (.pure _)) fun ts hts =>
    .remark_bind ((assignment_retypes ts .alone).mono (Tree.assignments_le_node hts)))

theorem exprStmt_retypes (cs : List Tree) (manner : Manner) :
    Retypes (Tree.node .exprStmt cs).assignments ((Tree.node .exprStmt cs).visit manner) := by
  rw [Tree.visit_node]
  exact .remark_bind (part_visit (.of_observes (.pure _)) fun ts hts =>
    .remark_bind ((expression_retypes ts .alone).mono (Tree.assignments_le_node hts)))

/-- Nothing that an expression consists of writes but its assignments: the visit of an operation leaves all that stands
as it is, and that of an expression statement gives a type to one untyped variable at most for each assignment. Either
holds of every tree in every state, and also where an error ends the visit. -/
theorem only_assignments_write (s : AnalysisState) (manner : Manner) :
    (∀ r cs, r.isOperation = true → (((Tree.node r cs).visit manner).runFrom s).2.standing = s.standing) ∧
    ∀ cs, ∃ places, places.length ≤ (Tree.node .exprStmt cs).assignments ∧
      s.standing.Retyped places (((Tree.node .exprStmt cs).visit manner).runFrom s).2.standing :=
  ⟨fun _ cs hr => (operation_observes cs manner hr).standing_eq s, fun cs => (exprStmt_retypes cs manner).runFrom s⟩

def readParts (r : Rule) (text : String) : List Tree :=
  ((parseText r text).toOption.map fun d => d.tree.children).getD []

theorem only_assignments_write_row :
    (∃ d, parseText .logicOr "a == c" = .ok d ∧ d.tree = .node .logicOr (readParts .logicOr "a == c")) ∧
    (((Tree.node .logicOr (readParts .logicOr "a == c")).visit .alone).runFrom Syntax.Pair.state).1.isOk = false ∧
    (((Tree.node .logicOr (readParts .logicOr "a == c")).visit .alone).runFrom Syntax.Pair.state).2.standing =
      Syntax.Pair.state.standing ∧
    (∃ d, parseText .exprStmt "a = b = 1;" = .ok d ∧ d.tree = .node .exprStmt (readParts .exprStmt "a = b = 1;")) ∧
    (Tree.node .exprStmt (readParts .exprStmt "a = b = 1;")).assignments = 2 ∧
    ∃ places, places.length ≤ 2 ∧ Syntax.Pair.state.standing.Retyped places
      (((Tree.node .exprStmt (readParts .exprStmt "a = b = 1;")).visit .alone).runFrom Syntax.Pair.state).2.standing := by
  have hoperation : (parseText .logicOr "a == c").toOption.map Derived.tree =
      some (.node .logicOr (readParts .logicOr "a == c")) := by
    decide +kernel
  have hstatement : (parseText .exprStmt "a = b = 1;").toOption.map Derived.tree =
      some (.node .exprStmt (readParts .exprStmt "a = b = 1;")) := by
    decide +kernel
  have hcount : (Tree.node .exprStmt (readParts .exprStmt "a = b = 1;")).assignments = 2 := by
    decide +kernel
  obtain ⟨hkept, hretyped⟩ := only_assignments_write Syntax.Pair.state .alone
  obtain ⟨places, hplaces, hg⟩ := hretyped (readParts .exprStmt "a = b = 1;")
  exact ⟨Syntax.exists_derived_of_tree hoperation, by decide +kernel,
    hkept .logicOr (readParts .logicOr "a == c") rfl, Syntax.exists_derived_of_tree hstatement, hcount, places,
    hcount ▸ hplaces, hg⟩

end Analysis

end CompiScript
