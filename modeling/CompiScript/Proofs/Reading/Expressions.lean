import CompiScript.Proofs.Derivation
import CompiScript.Proofs.Syntax

namespace CompiScript

section Inversion

variable {ts : List Tree}

theorem spells_seq {a b : Phrase} :
    Spells (.seq a b) ts ↔ ∃ xs, Spells a xs ∧ ∃ ys, Spells b ys ∧ ts = xs ++ ys := by
  constructor
  · intro h
    cases h with
    | seq ha hb => exact ⟨_, ha, _, hb, rfl⟩
  · rintro ⟨xs, ha, ys, hb, rfl⟩
    exact .seq ha hb

theorem spells_option {c : Choice} {a : Phrase} : Spells (.option c a) ts ↔ ts = [] ∨ Spells a ts := by
  constructor
  · intro h
    cases h with
    | none => exact .inl rfl
    | some h => exact .inr h
  · rintro (rfl | h)
    · exact .none
    · exact .some h

theorem spells_either {c : Choice} {a b : Phrase} :
    Spells (.either c a b) ts ↔ Spells a ts ∨ Spells b ts := by
  constructor
  · intro h
    cases h with
    | left h => exact .inl h
    | right h => exact .inr h
  · rintro (h | h)
    · exact .left h
    · exact .right h

theorem spells_rule {r : Rule} : Spells (.rule r) ts ↔ ∃ cs, Spells r.phrase cs ∧ ts = [.node r cs] := by
  constructor
  · intro h
    cases h with
    | rule h => exact ⟨_, h, rfl⟩
  · rintro ⟨cs, h, rfl⟩
    exact .rule h

theorem spells_token {k : Kind} :
    Spells (.token k) ts ↔ ∃ x : Lexeme, x.Spelt ∧ x.kind = k ∧ ts = [.leaf x] := by
  constructor
  · intro h
    cases h with
    | token h hx => exact ⟨_, hx, h, rfl⟩
  · rintro ⟨x, hx, h, rfl⟩
    exact .token h hx

theorem spells_oneOf {ks : List Kind} :
    Spells (.oneOf ks) ts ↔ ∃ x : Lexeme, x.Spelt ∧ x.kind ∈ ks ∧ ts = [.leaf x] := by
  constructor
  · intro h
    cases h with
    | oneOf h hx => exact ⟨_, hx, h, rfl⟩
  · rintro ⟨x, hx, h, rfl⟩
    exact .oneOf h hx

theorem Spells.many_induction {c : Choice} {a : Phrase} {P : List Tree → Prop} (nil : P [])
    (cons : ∀ xs ys, Spells a xs → P ys → P (xs ++ ys)) (h : Spells (.many c a) ts) : P ts := by
  generalize hf : Phrase.many c a = form at h
  induction h with
  | nil => exact nil
  | cons ha hm _ ih =>
    cases hf
    exact cons _ _ ha (ih rfl)
  | _ => simp at hf

theorem spells_repeated_rule {c : Choice} {r : Rule} (h : Spells (.many c (.rule r)) ts) :
    ∀ t ∈ ts, ∃ cs, Spells r.phrase cs ∧ t = .node r cs := by
  refine h.many_induction (P := fun ts => ∀ t ∈ ts, ∃ cs, Spells r.phrase cs ∧ t = .node r cs)
    (by simp) ?_
  intro xs ys hx ih t ht
  obtain ⟨cs, hc, rfl⟩ := spells_rule.mp hx
  rcases List.mem_append.mp ht with ht | ht
  · exact ⟨cs, hc, List.mem_singleton.mp ht⟩
  · exact ih t ht

theorem sizeOf_children {r : Rule} {cs : List Tree} (h : .node r cs ∈ ts) : sizeOf cs < sizeOf ts := by
  have := List.sizeOf_lt_of_mem h
  simp only [Tree.node.sizeOf_spec] at this
  omega

end Inversion

namespace Syntax

theorem spells_sign {k : Kind} {ts : List Tree} (hk : k.spelling?.isSome = true)
    (h : Spells (.token k) ts) : ts = [sign k] := by
  obtain ⟨x, hx, hkind, rfl⟩ := spells_token.mp h
  rw [hx.eq_literal hkind hk, sign]

theorem spells_signs {ks : List Kind} {ts : List Tree} (hks : ∀ k ∈ ks, k.spelling?.isSome = true)
    (h : Spells (.oneOf ks) ts) : ∃ k, ts = [sign k] := by
  obtain ⟨x, hx, hkind, rfl⟩ := spells_oneOf.mp h
  exact ⟨x.kind, by rw [sign, ← hx.eq_literal rfl (hks _ hkind)]⟩

theorem spells_identifier {ts : List Tree} (h : Spells (.token .identifier) ts) :
    ∃ x : Name, ts = [x.tree] := by
  obtain ⟨⟨k, text⟩, hx, hkind, rfl⟩ := spells_token.mp h
  simp only at hkind
  subst hkind
  exact ⟨⟨text, hx.of_identifier rfl⟩, rfl⟩

theorem spells_eof {ts : List Tree} (h : Spells (.token .eof) ts) : ts = [.leaf .eof] := by
  obtain ⟨x, hx, hkind, rfl⟩ := spells_token.mp h
  rw [hx.of_eof hkind]

theorem spells_leaf {k : Kind} {ts : List Tree} (h : Spells (.token k) ts) :
    ∃ text, ts = [.leaf ⟨k, text⟩] := by
  obtain ⟨x, -, rfl, rfl⟩ := spells_token.mp h
  exact ⟨x.text, rfl⟩

theorem exists_chain {α : Type} {operators : Phrase} {operand : Rule} {tree : α → Tree}
    (ho : ∀ ts, Spells operators ts → ∃ k, ts = [sign k])
    (ha : ∀ cs, Spells operand.phrase cs → ∃ a, tree a = .node operand cs) {cs : List Tree}
    (h : Spells (.chain operators operand) cs) (r : Rule) :
    ∃ c : Chain α, c.tree r tree = .node r cs := by
  have hrest : ∀ ts, Spells (.repeated [operators, .rule operand]) ts →
      ∃ rest, Chain.restTrees tree rest = ts := by
    intro ts ht
    refine ht.many_induction (P := fun ts => ∃ rest, Chain.restTrees tree rest = ts) ⟨[], rfl⟩ ?_
    rintro xs ys hx ⟨rest, rfl⟩
    obtain ⟨us, hu, vs, hv, rfl⟩ := spells_seq.mp hx
    obtain ⟨k, rfl⟩ := ho us hu
    obtain ⟨ds, hd, rfl⟩ := spells_rule.mp hv
    obtain ⟨a, hat⟩ := ha ds hd
    exact ⟨(k, a) :: rest, by simp [Chain.restTrees, hat]⟩
  simp only [Phrase.chain, Phrase.row] at h
  obtain ⟨xs, hx, ys, hy, rfl⟩ := spells_seq.mp h
  obtain ⟨ds, hd, rfl⟩ := spells_rule.mp hx
  obtain ⟨a, hat⟩ := ha ds hd
  obtain ⟨rest, rfl⟩ := hrest ys hy
  exact ⟨⟨a, rest⟩, by simp [Chain.tree, hat]⟩

theorem exists_primary {cs : List Tree} (h : Spells Rule.primary.phrase cs) :
    ∃ p : Primary, p.tree = .node .primary cs := by
  simp only [Rule.phrase, Phrase.choose, Phrase.row, spells_either] at h
  rcases h with h | h | h | h | h | h | h | h | h | h | h
  · exact ⟨.truth true, by rw [spells_sign rfl h]; rfl⟩
  · exact ⟨.truth false, by rw [spells_sign rfl h]; rfl⟩
  · exact ⟨.nil, by rw [spells_sign rfl h]; rfl⟩
  · exact ⟨.this, by rw [spells_sign rfl h]; rfl⟩
  · obtain ⟨text, rfl⟩ := spells_leaf h
    exact ⟨.number text, rfl⟩
  · obtain ⟨text, rfl⟩ := spells_leaf h
    exact ⟨.string text, rfl⟩
  · obtain ⟨x, rfl⟩ := spells_identifier h
    exact ⟨.name x, rfl⟩
  · obtain ⟨xs, hx, ys, hy, rfl⟩ := spells_seq.mp h
    obtain ⟨us, hu, vs, hv, rfl⟩ := spells_seq.mp hy
    obtain ⟨inner, -, rfl⟩ := spells_rule.mp hu
    rw [spells_sign rfl hx, spells_sign rfl hv]
    exact ⟨.group inner, rfl⟩
  · obtain ⟨xs, hx, ys, hy, rfl⟩ := spells_seq.mp h
    obtain ⟨us, hu, vs, hv, rfl⟩ := spells_seq.mp hy
    obtain ⟨x, rfl⟩ := spells_identifier hv
    rw [spells_sign rfl hx, spells_sign rfl hu]
    exact ⟨.inherited x, rfl⟩
  · obtain ⟨ds, hd, rfl⟩ := spells_rule.mp h
    simp only [Rule.phrase, Phrase.row] at hd
    obtain ⟨xs, hx, ys, -, rfl⟩ := spells_seq.mp hd
    rw [spells_sign rfl hx]
    exact ⟨.array ys, rfl⟩
  · obtain ⟨ds, hd, rfl⟩ := spells_rule.mp h
    simp only [Rule.phrase, Phrase.row] at hd
    obtain ⟨xs, hx, ys, -, rfl⟩ := spells_seq.mp hd
    rw [spells_sign rfl hx]
    exact ⟨.creation ys, rfl⟩

theorem exists_call {cs : List Tree} (h : Spells Rule.call.phrase cs) :
    ∃ c : Call, c.tree = .node .call cs := by
  simp only [Rule.phrase, Phrase.choose, Phrase.row, spells_either] at h
  rcases h with h | h
  · obtain ⟨xs, hx, suffixes, -, rfl⟩ := spells_seq.mp h
    obtain ⟨ds, hd, rfl⟩ := spells_rule.mp hx
    obtain ⟨p, hp⟩ := exists_primary hd
    exact ⟨.primary p suffixes, by simp [Call.tree, hp]⟩
  · obtain ⟨parts, -, rfl⟩ := spells_rule.mp h
    exact ⟨.function parts, rfl⟩

theorem exists_unary {cs : List Tree} (h : Spells Rule.unary.phrase cs) :
    ∃ u : Unary, u.tree = .node .unary cs := by
  simp only [Rule.phrase, Phrase.choose, Phrase.row, spells_either] at h
  rcases h with h | h
  · obtain ⟨xs, hx, ys, hy, rfl⟩ := spells_seq.mp h
    obtain ⟨k, rfl⟩ := spells_signs (by decide) hx
    obtain ⟨operand, -, rfl⟩ := spells_rule.mp hy
    exact ⟨.signed k operand, rfl⟩
  · obtain ⟨ds, hd, rfl⟩ := spells_rule.mp h
    obtain ⟨c, hc⟩ := exists_call hd
    exact ⟨.call c, by rw [Unary.tree, hc]⟩

theorem exists_factor (cs : List Tree) (h : Spells Rule.factor.phrase cs) :
    ∃ e : Factor, e.tree = .node .factor cs :=
  exists_chain (fun _ => spells_signs (by decide)) (fun _ => exists_unary) h _

theorem exists_term (cs : List Tree) (h : Spells Rule.term.phrase cs) :
    ∃ e : Term, e.tree = .node .term cs :=
  exists_chain (fun _ => spells_signs (by decide)) exists_factor h _

theorem exists_comparison (cs : List Tree) (h : Spells Rule.comparison.phrase cs) :
    ∃ e : Comparison, e.tree = .node .comparison cs :=
  exists_chain (fun _ => spells_signs (by decide)) exists_term h _

theorem exists_equality (cs : List Tree) (h : Spells Rule.equality.phrase cs) :
    ∃ e : Equality, e.tree = .node .equality cs :=
  exists_chain (fun _ => spells_signs (by decide)) exists_comparison h _

theorem exists_logicAnd (cs : List Tree) (h : Spells Rule.logicAnd.phrase cs) :
    ∃ e : LogicAnd, e.tree = .node .logicAnd cs :=
  exists_chain (fun _ ht => ⟨_, spells_sign rfl ht⟩) exists_equality h _

theorem exists_logicOr (cs : List Tree) (h : Spells Rule.logicOr.phrase cs) :
    ∃ e : LogicOr, e.tree = .node .logicOr cs :=
  exists_chain (fun _ ht => ⟨_, spells_sign rfl ht⟩) exists_logicAnd h _

theorem exists_assignment (cs : List Tree) (h : Spells Rule.assignment.phrase cs) :
    ∃ a : Assignment, a.tree = .node .assignment cs := by
  simp only [Rule.phrase, Phrase.row, spells_either, spells_seq] at h
  rcases h with ⟨xs, hx, _, ⟨us, hu, _, ⟨ps, hp, qs, hq, rfl⟩, rfl⟩, rfl⟩ | h
  · obtain ⟨x, rfl⟩ := spells_identifier hu
    obtain ⟨ds, hd, rfl⟩ := spells_rule.mp hq
    have hobject : ∃ object, Assignment.objectTrees object = xs := by
      rcases spells_option.mp hx with rfl | hx
      · exact ⟨none, rfl⟩
      · obtain ⟨es, he, fs, hf, rfl⟩ := spells_seq.mp hx
        obtain ⟨parts, -, rfl⟩ := spells_rule.mp he
        exact ⟨some parts, by rw [spells_sign rfl hf]; rfl⟩
    obtain ⟨object, rfl⟩ := hobject
    obtain ⟨value, hvalue⟩ := exists_assignment ds hd
    rw [spells_sign rfl hp]
    exact ⟨.assign object x value, by simp [Assignment.tree, hvalue]⟩
  · obtain ⟨ds, hd, rfl⟩ := spells_rule.mp h
    obtain ⟨e, he⟩ := exists_logicOr ds hd
    exact ⟨.operation e, by rw [Assignment.tree, he]⟩
termination_by sizeOf cs
decreasing_by
  subst_vars
  exact sizeOf_children (r := .assignment) (by simp)

theorem exists_expression {cs : List Tree} (h : Spells Rule.expression.phrase cs) :
    ∃ e : Expression, e.tree = .node .expression cs := by
  simp only [Rule.phrase, spells_either] at h
  rcases h with h | h
  · obtain ⟨ds, hd, rfl⟩ := spells_rule.mp h
    obtain ⟨a, ha⟩ := exists_assignment ds hd
    exact ⟨.assignment a, by rw [Expression.tree, ha]⟩
  · obtain ⟨parts, -, rfl⟩ := spells_rule.mp h
    exact ⟨.function parts, rfl⟩

theorem spells_expression {ts : List Tree} (h : Spells (.rule .expression) ts) :
    ∃ e : Expression, ts = [e.tree] := by
  obtain ⟨cs, hc, rfl⟩ := spells_rule.mp h
  obtain ⟨e, he⟩ := exists_expression hc
  exact ⟨e, by rw [he]⟩

theorem spells_expression? {ts : List Tree} (h : Spells (.optional [.rule .expression]) ts) :
    ∃ e : Option Expression, ts = Expression.trees e := by
  rcases spells_option.mp h with rfl | h
  · exact ⟨none, rfl⟩
  · obtain ⟨e, rfl⟩ := spells_expression h
    exact ⟨some e, rfl⟩

theorem spells_varDecl {ts : List Tree} (h : Spells (.rule .varDecl) ts) :
    ∃ v : VarDecl, ts = [v.tree] := by
  obtain ⟨cs, hc, rfl⟩ := spells_rule.mp h
  simp only [Rule.phrase, Phrase.row, spells_seq] at hc
  obtain ⟨xs, hx, _, ⟨us, hu, _, ⟨ps, hp, qs, hq, rfl⟩, rfl⟩, rfl⟩ := hc
  obtain ⟨x, rfl⟩ := spells_identifier hu
  have hvalue : ∃ value, VarDecl.valueTrees value = ps := by
    rcases spells_option.mp hp with rfl | hp
    · exact ⟨none, rfl⟩
    · obtain ⟨es, he, fs, hf, rfl⟩ := spells_seq.mp hp
      obtain ⟨e, rfl⟩ := spells_expression hf
      exact ⟨some e, by rw [spells_sign rfl he]; rfl⟩
  obtain ⟨value, rfl⟩ := hvalue
  rw [spells_sign rfl hx, spells_sign rfl hq]
  exact ⟨⟨x, value⟩, by simp [VarDecl.tree]⟩

theorem spells_exprStmt {ts : List Tree} (h : Spells (.rule .exprStmt) ts) :
    ∃ e : Expression, ts = [.node .exprStmt [e.tree, sign .semicolon]] := by
  obtain ⟨cs, hc, rfl⟩ := spells_rule.mp h
  simp only [Rule.phrase, Phrase.row] at hc
  obtain ⟨xs, hx, ys, hy, rfl⟩ := spells_seq.mp hc
  obtain ⟨e, rfl⟩ := spells_expression hx
  rw [spells_sign rfl hy]
  exact ⟨e, rfl⟩

theorem spells_forInit {ts : List Tree}
    (h : Spells (.choose [.rule .varDecl, .rule .exprStmt, .token .semicolon]) ts) :
    ∃ i : ForInit, ts = [i.tree] := by
  simp only [Phrase.choose, spells_either] at h
  rcases h with h | h | h
  · obtain ⟨v, rfl⟩ := spells_varDecl h
    exact ⟨.variable v, rfl⟩
  · obtain ⟨e, rfl⟩ := spells_exprStmt h
    exact ⟨.expression e, rfl⟩
  · exact ⟨.nothing, spells_sign rfl h⟩

theorem spells_params? {ts : List Tree} (h : Spells (.optional [.rule .parameters]) ts) :
    ∃ ps : Option Params, ts = Params.trees ps := by
  have hrest : ∀ ts, Spells (.repeated [.token .comma, .token .identifier]) ts →
      ∃ rest, Params.restTrees rest = ts := by
    intro ts ht
    refine ht.many_induction (P := fun ts => ∃ rest, Params.restTrees rest = ts) ⟨[], rfl⟩ ?_
    rintro xs ys hx ⟨rest, rfl⟩
    obtain ⟨us, hu, vs, hv, rfl⟩ := spells_seq.mp hx
    obtain ⟨x, rfl⟩ := spells_identifier hv
    rw [spells_sign rfl hu]
    exact ⟨x :: rest, rfl⟩
  rcases spells_option.mp h with rfl | h
  · exact ⟨none, rfl⟩
  · obtain ⟨cs, hc, rfl⟩ := spells_rule.mp h
    simp only [Rule.phrase, Phrase.row] at hc
    obtain ⟨xs, hx, ys, hy, rfl⟩ := spells_seq.mp hc
    obtain ⟨x, rfl⟩ := spells_identifier hx
    obtain ⟨rest, rfl⟩ := hrest ys hy
    exact ⟨some ⟨x, rest⟩, rfl⟩

theorem exists_trees {ts : List Tree} (h : ∀ t ∈ ts, ∃ d : Declaration, d.tree = t) :
    ∃ ds, Declaration.trees ds = ts := by
  induction ts with
  | nil => exact ⟨[], by rw [Declaration.trees]⟩
  | cons t ts ih =>
    obtain ⟨d, hd⟩ := h t (by simp)
    obtain ⟨ds, hds⟩ := ih (fun t ht => h t (List.mem_cons_of_mem _ ht))
    exact ⟨d :: ds, by rw [Declaration.trees, hd, hds]⟩

end Syntax

end CompiScript
