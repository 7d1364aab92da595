import CompiScript.Proofs.Refusals.Levels

namespace CompiScript

namespace Syntax

namespace Level.Operands

variable {l : Level} {g : Standing} {α : Type} (o : l.Operands g α)

structure Typed (e : Chain α) (type : α → Option Ty) : Prop where
  type_eq : ∀ a ∈ e.operands, o.type a = .ok (type a)
  isProper : ∀ a ∈ e.operands, Ty.IsProper (type a)

variable {o} {e : Chain α} {type : α → Option Ty}

theorem Typed.check_eq (h : o.Typed e type) {p : Kind × α} (hp : p ∈ e.rest) :
    o.type p.2 = .ok (type p.2) ∧ l.check g (type e.first) p.1 (type p.2) =
      if l.Fits g (type e.first) p.1 (type p.2) then .ok () else .error (l.refusal (type e.first) p.1 (type p.2)) := by
  have hmem : p.2 ∈ e.operands := List.mem_cons_of_mem _ (List.mem_map_of_mem hp)
  exact ⟨h.type_eq _ hmem, Level.check_eq (h.isProper _ hmem)⟩

theorem Typed.checkRest_eq_ok (h : o.Typed e type) {rest : List (Kind × α)} (hrest : ∀ p ∈ rest, p ∈ e.rest)
    (hfits : ∀ p ∈ rest, l.Fits g (type e.first) p.1 (type p.2)) :
    Chain.checkRest o.type (l.check g (type e.first)) rest = .ok () := by
  rw [Chain.checkRest_eq_ok]
  intro p hp
  obtain ⟨htype, hcheck⟩ := h.check_eq (hrest p hp)
  exact ⟨type p.2, htype, hcheck.trans (if_pos (hfits p hp))⟩

theorem Typed.type_eq_ok (h : o.Typed e type) (hrest : e.rest ≠ [])
    (hfits : ∀ p ∈ e.rest, l.Fits g (type e.first) p.1 (type p.2)) :
    e.type o.type (l.check g) l.result = .ok (some l.result) := by
  rw [Chain.type_of_rest hrest (h.type_eq _ List.mem_cons_self), h.checkRest_eq_ok (fun _ hp => hp) hfits]
  rfl

theorem Typed.type_eq_error (h : o.Typed e type) {before : List (Kind × α)} {k : Kind} {a : α}
    (he : e.rest = before ++ [(k, a)]) (hbefore : ∀ p ∈ before, l.Fits g (type e.first) p.1 (type p.2))
    (hfits : ¬l.Fits g (type e.first) k (type a)) :
    e.type o.type (l.check g) l.result = .error (l.refusal (type e.first) k (type a)) := by
  have hmem : ∀ p ∈ before, p ∈ e.rest := fun p hp => he ▸ List.mem_append_left _ hp
  obtain ⟨htype, hcheck⟩ := h.check_eq (p := (k, a)) (he ▸ List.mem_append_right _ (List.mem_singleton_self _))
  have hne : e.rest ≠ [] := he ▸ List.append_ne_nil_of_right_ne_nil _ (List.cons_ne_nil _ _)
  have hlast : Chain.checkRest o.type (l.check g (type e.first)) [(k, a)] =
      .error (l.refusal (type e.first) k (type a)) := by
    simp only [Chain.checkRest, htype]
    change l.check g (type e.first) k (type a) >>= _ = _
    rw [hcheck, if_neg hfits]
    rfl
  rw [Chain.type_of_rest hne (h.type_eq _ List.mem_cons_self), he, Chain.checkRest_append,
    h.checkRest_eq_ok hmem hbefore]
  change Except.map _ (Chain.checkRest _ _ [(k, a)]) = _
  rw [hlast]
  rfl

theorem Typed.take (h : o.Typed e type) {before after : List (Kind × α)} (he : e.rest = before ++ after) :
    o.Typed ⟨e.first, before⟩ type := by
  have hrest : ∀ p ∈ before, p ∈ e.rest := fun p hp => he ▸ List.mem_append_left _ hp
  have hoperands : ∀ a ∈ Chain.operands ⟨e.first, before⟩, a ∈ e.operands := by
    intro a ha
    rcases List.mem_cons.mp ha with rfl | ha
    · exact List.mem_cons_self
    · obtain ⟨p, hp, rfl⟩ := List.mem_map.mp ha
      exact List.mem_cons_of_mem _ (List.mem_map_of_mem (hrest p hp))
  exact ⟨fun a ha => h.type_eq a (hoperands a ha), fun a ha => h.isProper a (hoperands a ha)⟩

theorem Typed.visit_refused (h : o.Typed e type) {before after : List (Kind × α)} {k : Kind} {a : α}
    (he : e.rest = before ++ (k, a) :: after) (hbefore : ∀ p ∈ before, l.Fits g (type e.first) p.1 (type p.2))
    (hfits : ¬l.Fits g (type e.first) k (type a)) {s : AnalysisState} (hs : s.standing = g) :
    ∃ s', s'.standing = g ∧ ∀ more : List Child,
      (Analysis.visitRule l.rule .alone
        ((o.tree e.first :: Chain.restTrees o.tree (before ++ [(k, a)])).map Tree.child ++ more)).runFrom s =
          (.error (l.refusal (type e.first) k (type a)), s') := by
  have hsplit : e.rest = (before ++ [(k, a)]) ++ after := he.trans (List.append_cons ..)
  have htyped : o.Typed ⟨e.first, before ++ [(k, a)]⟩ type := h.take hsplit
  obtain ⟨s', hrun, hs'⟩ := o.chain_run ⟨e.first, before ++ [(k, a)]⟩ s hs
  rw [htyped.type_eq_error rfl hbefore hfits, Chain.tree, Tree.visit_node] at hrun
  refine ⟨s', hs', fun more => ?_⟩
  have hoperands : (Analysis.ofRule l.operand ((o.tree e.first :: Chain.restTrees o.tree (before ++ [(k, a)])).map
      Tree.child)).length = before.length + 2 := by
    simp [o.isRule, ofRule_restTrees l.operand o.isRule]
  refine l.visitRule_failsAs .alone ?_ ?_ more s _ s' hrun
  · omega
  · rw [hoperands, List.length_map, List.length_cons, Chain.length_restTrees, List.length_append, List.length_singleton]
    omega

end Level.Operands

theorem names_of_pieces {e : AnalysisError} {pieces : List String} (h : e.message = String.join pieces) :
    ∀ text ∈ pieces, e.Names text := by
  intro text htext
  rw [AnalysisError.Names, h, String.toList_join]
  exact List.infix_of_mem_flatten (List.mem_map_of_mem htext)

theorem names_of_pair {e : AnalysisError} {opening middle operator : String} {left right : Option Ty}
    (h : e.message = opening ++ operator ++ middle ++ AnalysisError.pair left right) :
    ∀ text ∈ [Ty.show? left, operator, Ty.show? right], e.Names text := by
  have hpieces : opening ++ operator ++ middle ++ AnalysisError.pair left right =
      String.join [opening, operator, middle, "'", Ty.show? left, "' and '", Ty.show? right, "'"] := by
    simp [AnalysisError.pair, String.append_assoc]
  have hnames := names_of_pieces (h.trans hpieces)
  simp only [List.forall_mem_cons] at hnames ⊢
  obtain ⟨-, hoperator, -, -, hleft, -, hright, -⟩ := hnames
  exact ⟨hleft, hoperator, hright, nofun⟩

theorem notComparable_names (operator : String) (left right : Option Ty) :
    ∀ text ∈ [Ty.show? left, operator, Ty.show? right],
      (AnalysisError.notComparable operator left right).Names text := by
  have hpieces : ∀ opening middle closing quote : String,
      opening ++ Ty.show? left ++ middle ++ Ty.show? right ++ closing ++ operator ++ quote =
        String.join [opening, Ty.show? left, middle, Ty.show? right, closing, operator, quote] := by
    simp [String.append_assoc]
  have hnames := names_of_pieces (e := .notComparable operator left right) (hpieces _ _ _ _)
  simp only [List.forall_mem_cons] at hnames ⊢
  obtain ⟨-, hleft, -, hright, -, hoperator, -⟩ := hnames
  exact ⟨hleft, hoperator, hright, nofun⟩

theorem Level.refusal_names {l : Level} {k : Kind} (hk : k ∈ l.operators) (left right : Option Ty) :
    ∀ text ∈ [Ty.show? left, word k, Ty.show? right], (l.refusal left k right).Names text := by
  cases l with
  | logicOr | logicAnd =>
    obtain rfl := List.mem_singleton.mp hk
    exact names_of_pair rfl
  | comparison | term | factor => exact names_of_pair rfl
  | equality =>
    rw [refusal]
    split
    · exact names_of_pair rfl
    · exact notComparable_names (word k) left right

section Trees

variable {s : AnalysisState} {l : Level} {c : Chain Tree} {type : Tree → Option Ty}

def valueTypes : List (Option Ty) :=
  [none, some .num, some .boolean, some .string, some .nil]

theorem isProper_of_mem {t : Option Ty} (h : t ∈ valueTypes) : Ty.IsProper t := by
  simp only [valueTypes, List.mem_cons, List.not_mem_nil, or_false] at h
  rcases h with rfl | rfl | rfl | rfl | rfl <;> trivial

theorem exists_typed (hc : Spells (.rule l.rule) [c.tree l.rule id]) (htype : ∀ a ∈ c.operands, HasType s a (type a))
    (hvalue : ∀ a ∈ c.operands, type a ∈ valueTypes) :
    ∃ (α : Type) (o : l.Operands s.standing α) (e : Chain α),
      e.map o.tree = c ∧ o.Typed e fun a => type (o.tree a) := by
  obtain ⟨α, o, e, he⟩ := exists_operands l s.standing hc
  obtain rfl : e.map o.tree = c := Chain.map_eq_of_tree_eq he
  have hmem : ∀ a ∈ e.operands, o.tree a ∈ (e.map o.tree).operands := by
    intro a ha
    have hmap := List.mem_map_of_mem (f := o.tree) ha
    simpa [Chain.operands, Chain.map] using hmap
  refine ⟨α, o, e, rfl, ?_, ?_⟩
  · intro a ha
    exact (hasType_iff (o.visit_run a) _).mp (htype _ (hmem a ha))
  · intro a ha
    exact isProper_of_mem (hvalue _ (hmem a ha))

theorem visit_of_fits (hc : Spells (.rule l.rule) [c.tree l.rule id]) (hrest : c.rest ≠ [])
    (htype : ∀ a ∈ c.operands, HasType s a (type a)) (hvalue : ∀ a ∈ c.operands, type a ∈ valueTypes)
    (hfits : ∀ p ∈ c.rest, l.Fits s.standing (type c.first) p.1 (type p.2)) :
    ∃ s', ((c.tree l.rule id).visit .alone).runFrom s = (.ok (.type (some l.result)), s') ∧
      s'.standing = s.standing := by
  obtain ⟨α, o, e, rfl, htyped⟩ := exists_typed hc htype hvalue
  have hne : e.rest ≠ [] := fun h => hrest (by rw [Chain.map, h]; rfl)
  obtain ⟨s', hrun, hs'⟩ := o.chain_run e s rfl
  rw [htyped.type_eq_ok hne (List.forall_mem_map.mp hfits)] at hrun
  rw [Chain.tree, Chain.map, Chain.restTrees_map]
  exact ⟨s', hrun, hs'⟩

theorem visit_of_not_fits (hc : Spells (.rule l.rule) [c.tree l.rule id])
    (htype : ∀ a ∈ c.operands, HasType s a (type a)) (hvalue : ∀ a ∈ c.operands, type a ∈ valueTypes)
    {before after : List (Kind × Tree)} {k : Kind} {a : Tree} (hsplit : c.rest = before ++ (k, a) :: after)
    (hbefore : ∀ p ∈ before, l.Fits s.standing (type c.first) p.1 (type p.2))
    (hfits : ¬l.Fits s.standing (type c.first) k (type a)) :
    ∃ s', s'.standing = s.standing ∧
      ((c.tree l.rule id).visit .alone).runFrom s = (.error (l.refusal (type c.first) k (type a)), s') ∧
      ∀ more : List Child,
        (Analysis.visitRule l.rule .alone
          ((c.first :: Chain.restTrees id (before ++ [(k, a)])).map Tree.child ++ more)).runFrom s =
            (.error (l.refusal (type c.first) k (type a)), s') := by
  have hwhole : id c.first :: Chain.restTrees id c.rest =
      (c.first :: Chain.restTrees id (before ++ [(k, a)])) ++ Chain.restTrees id after := by
    rw [hsplit, List.append_cons, Chain.restTrees_append id _ after]
    rfl
  rw [Chain.tree, Tree.visit_node, hwhole, List.map_append]
  obtain ⟨α, o, e, rfl, htyped⟩ := exists_typed hc htype hvalue
  obtain ⟨before', rest', he, rfl, hrest⟩ := List.map_eq_append_iff.mp hsplit
  obtain ⟨⟨k', a'⟩, after', rfl, hp, rfl⟩ := List.map_eq_cons_iff.mp hrest
  obtain ⟨rfl, rfl⟩ := Prod.mk.inj hp
  have htrees : Chain.restTrees id (before'.map (fun p => (p.1, o.tree p.2)) ++ [(k', o.tree a')]) =
      Chain.restTrees o.tree (before' ++ [(k', a')]) := by
    rw [← Chain.restTrees_map o.tree (before' ++ [(k', a')]), List.map_append]
    rfl
  rw [htrees]
  obtain ⟨s', hs', hmore⟩ := htyped.visit_refused he (List.forall_mem_map.mp hbefore) hfits rfl
  exact ⟨s', hs', hmore _, hmore⟩

theorem visit_eq_ok_iff (hc : Spells (.rule l.rule) [c.tree l.rule id]) (hrest : c.rest ≠ [])
    (htype : ∀ a ∈ c.operands, HasType s a (type a)) (hvalue : ∀ a ∈ c.operands, type a ∈ valueTypes) :
    (∃ v s', ((c.tree l.rule id).visit .alone).runFrom s = (.ok v, s')) ↔
      ∀ p ∈ c.rest, l.Fits s.standing (type c.first) p.1 (type p.2) := by
  constructor
  · rintro ⟨v, s', hvisit⟩ p hp
    apply Decidable.not_not.mp
    intro hfits
    -- Of the operands that do not go with the first one, the visit would end at the first.
    obtain ⟨q, hq⟩ : ∃ q, c.rest.find? (fun q => !decide (l.Fits s.standing (type c.first) q.1 (type q.2))) = some q :=
      Option.isSome_iff_exists.mp (List.find?_isSome.mpr ⟨p, hp, by simpa using hfits⟩)
    obtain ⟨hmisfit, before, after, hsplit, hbefore⟩ := List.find?_eq_some_iff_append.mp hq
    obtain ⟨s₁, -, herror, -⟩ :=
      visit_of_not_fits hc htype hvalue hsplit (by simpa using hbefore) (by simpa using hmisfit)
    cases (Prod.mk.inj (hvisit.symm.trans herror)).1
  · intro hfits
    obtain ⟨s', hvisit, -⟩ := visit_of_fits hc hrest htype hvalue hfits
    exact ⟨_, s', hvisit⟩

theorem forall_rest_iff_uniform {types : List Ty} (hrest : c.rest ≠ []) :
    (∀ p ∈ c.rest, ∃ u ∈ types, type c.first = some u ∧ type p.2 = some u) ↔
      ∃ u ∈ types, ∀ a ∈ c.operands, type a = some u := by
  rw [Chain.operands]
  simp only [List.forall_mem_cons, List.forall_mem_map]
  constructor
  · intro h
    obtain ⟨p, hp⟩ := List.exists_mem_of_ne_nil c.rest hrest
    obtain ⟨u, hu, hfirst, -⟩ := h p hp
    refine ⟨u, hu, hfirst, fun q hq => ?_⟩
    obtain ⟨v, -, hv, hq⟩ := h q hq
    rw [hq, ← hv, hfirst]
  · rintro ⟨u, hu, hfirst, hothers⟩ p hp
    exact ⟨u, hu, hfirst, hothers p hp⟩

end Trees

/-- A chain is accepted, with the type of its level, exactly if each operand goes with the first one: without the flags,
if all operands have one type that the level accepts. The first operand that does not go with the first one is named in
the error with it and with the operator between them, and the visit ends there, whatever children are behind it. -/
theorem chain_accepted_iff {s : AnalysisState} (l : Level) {c : Chain Tree}
    (hc : Spells (.rule l.rule) [c.tree l.rule id]) (hrest : c.rest ≠ []) {type : Tree → Option Ty}
    (htype : ∀ a ∈ c.operands, HasType s a (type a)) (hvalue : ∀ a ∈ c.operands, type a ∈ valueTypes) :
    let visit := ((c.tree l.rule id).visit .alone).runFrom s
    let Fits := l.Fits s.standing (type c.first)
    ((∃ v s', visit = (.ok v, s')) ↔ ∀ p ∈ c.rest, Fits p.1 (type p.2)) ∧
      (s.inPrint = false → s.inReturn = false →
        ((∃ v s', visit = (.ok v, s')) ↔ ∃ u ∈ l.accepted, ∀ a ∈ c.operands, type a = some u)) ∧
      (s.inReturn = true → l ∈ [.comparison, .term, .factor] → ∃ v s', visit = (.ok v, s')) ∧
      (s.inPrint = true → l = .term →
        ((∃ v s', visit = (.ok v, s')) ↔ ∀ p ∈ c.rest, p.1 ≠ .plus → Fits p.1 (type p.2))) ∧
      (∀ v s', visit = (.ok v, s') → v = .type (some l.result) ∧ s'.standing = s.standing) ∧
      ∀ before k a after, c.rest = before ++ (k, a) :: after → (∀ p ∈ before, Fits p.1 (type p.2)) →
        ¬Fits k (type a) →
        let e := l.refusal (type c.first) k (type a)
        (∀ text ∈ [Ty.show? (type c.first), word k, Ty.show? (type a)], e.Names text) ∧
          ∃ s', s'.standing = s.standing ∧ visit = (.error e, s') ∧ ∀ more : List Child,
            (Analysis.visitRule l.rule .alone
              ((c.first :: Chain.restTrees id (before ++ [(k, a)])).map Tree.child ++ more)).runFrom s =
                (.error e, s') := by
  intro visit Fits
  have hiff := visit_eq_ok_iff hc hrest htype hvalue
  refine ⟨hiff, ?_, ?_, ?_, ?_, ?_⟩
  · intro hprint hreturn
    have hplain : ∀ p ∈ c.rest, Fits p.1 (type p.2) ↔ ∃ u ∈ l.accepted, type c.first = some u ∧ type p.2 = some u :=
      fun p _ => Level.fits_iff_of_plain hprint hreturn
    rw [hiff, forall₂_congr hplain]
    exact forall_rest_iff_uniform hrest
  · intro hreturn hl
    exact hiff.mpr fun p _ => .inl ⟨hl, .inl hreturn⟩
  · intro hprint hterm
    have hl : l ∈ [.comparison, .term, .factor] := by simp [hterm]
    rw [hiff]
    refine forall₂_congr fun p _ => ⟨fun h _ => h, fun h => ?_⟩
    by_cases hplus : p.1 = .plus
    · exact .inl ⟨hl, .inr ⟨hprint, hplus⟩⟩
    · exact h hplus
  · intro v s' hvisit
    obtain ⟨s₁, hvisit₁, hs₁⟩ := visit_of_fits hc hrest htype hvalue (hiff.mp ⟨v, s', hvisit⟩)
    obtain ⟨hv, rfl⟩ := Prod.mk.inj (hvisit.symm.trans hvisit₁)
    exact ⟨Except.ok.inj hv, hs₁⟩
  · intro before k a after hsplit hbefore hfits
    have hoperator : k ∈ l.operators := mem_operators l hc (k, a) (hsplit ▸ List.mem_append_right _ List.mem_cons_self)
    exact ⟨Level.refusal_names hoperator _ _, visit_of_not_fits hc htype hvalue hsplit hbefore hfits⟩

namespace Mixed

def operand (p : Primary) : Tree :=
  Factor.tree ⟨.call (.primary p []), []⟩

def chain : Chain Tree :=
  ⟨operand (.number "1"),
    [(.minus, operand (.number "2")), (.plus, operand (.string "\"a\"")), (.plus, operand .nil)]⟩

def type (a : Tree) : Option Ty :=
  match ((a.visit .alone).runFrom .start).1 with
  | .ok (.type t) => t
  | _ => none

end Mixed

theorem mixed_chain_refused :
    ∃ d s', parseText .term "1 - 2 + \"a\" + nil" = .ok d ∧ d.tree = Mixed.chain.tree .term id ∧
      s'.standing = AnalysisState.start.standing ∧
      (d.tree.visit .alone).runFrom .start = (.error (.needsNumbers "+" (some .num) (some .string)), s') ∧
      ∀ more : List Child,
        (Analysis.visitRule .term .alone
          (([Mixed.operand (.number "1"), sign .minus, Mixed.operand (.number "2"), sign .plus,
            Mixed.operand (.string "\"a\"")]).map Tree.child ++ more)).runFrom .start =
              (.error (.needsNumbers "+" (some .num) (some .string)), s') := by
  have hparse : (parseText .term "1 - 2 + \"a\" + nil").toOption.map Derived.tree =
      some (Mixed.chain.tree .term id) := by
    decide +kernel
  obtain ⟨d, hd, htree⟩ := exists_derived_of_tree hparse
  have hspells : Spells (.rule .term) [Mixed.chain.tree .term id] := htree ▸ parseText_spells hd
  have hliteral : ∀ p t, p.type AnalysisState.start.standing = .ok t → HasType .start (Mixed.operand p) t := by
    intro p t hp
    exact (hasType_iff (Factor.visit_run _ ⟨.call (.primary p []), []⟩ .alone) t).mpr hp
  have htype : ∀ a ∈ Mixed.chain.operands, HasType .start a (Mixed.type a) := by
    simp only [Mixed.chain, Chain.operands, List.map_cons, List.map_nil, List.forall_mem_cons]
    exact ⟨hliteral _ _ rfl, hliteral _ _ rfl, hliteral _ _ rfl, hliteral _ _ rfl, List.forall_mem_nil _⟩
  obtain ⟨-, -, -, -, -, hrefused⟩ := chain_accepted_iff .term hspells (by decide) htype (by decide +kernel)
  obtain ⟨-, s', hs', hvisit, hmore⟩ := hrefused [(.minus, Mixed.operand (.number "2"))] .plus
    (Mixed.operand (.string "\"a\"")) [(.plus, Mixed.operand .nil)] rfl (by decide +kernel) (by decide +kernel)
  exact ⟨d, s', hd, htree, hs', htree ▸ hvisit, hmore⟩

end Syntax

end CompiScript
