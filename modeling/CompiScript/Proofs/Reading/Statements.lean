import CompiScript.Proofs.Reading.Expressions

namespace CompiScript

namespace Syntax

structure Readable (n : Nat) : Prop where
  statement : ∀ cs, sizeOf cs < n → Spells Rule.statement.phrase cs →
    ∃ s : Statement, s.tree = .node .statement cs
  declaration : ∀ cs, sizeOf cs < n → Spells Rule.declaration.phrase cs →
    ∃ d : Declaration, d.tree = .node .declaration cs

namespace Readable

variable {n : Nat} {cs : List Tree}

theorem statement_of_subset (hr : Readable n) (hn : sizeOf cs ≤ n) {ts : List Tree}
    (h : Spells (.rule .statement) ts) (hts : ∀ t ∈ ts, t ∈ cs) : ∃ s : Statement, ts = [s.tree] := by
  obtain ⟨ds, hd, rfl⟩ := spells_rule.mp h
  have hsize := sizeOf_children (hts _ (List.mem_singleton_self _))
  obtain ⟨s, hs⟩ := hr.statement ds (Nat.lt_of_lt_of_le hsize hn) hd
  exact ⟨s, by rw [hs]⟩

theorem declarations_of_subset (hr : Readable n) (hn : sizeOf cs ≤ n) {ts : List Tree}
    (h : Spells (.repeated [.rule .declaration]) ts) (hts : ∀ t ∈ ts, t ∈ cs) :
    ∃ ds, ts = Declaration.trees ds := by
  have hall : ∀ t ∈ ts, ∃ d : Declaration, d.tree = t := by
    intro t ht
    obtain ⟨ds, hd, rfl⟩ := spells_repeated_rule h t ht
    exact hr.declaration ds (Nat.lt_of_lt_of_le (sizeOf_children (hts _ ht)) hn) hd
  obtain ⟨ds, rfl⟩ := exists_trees hall
  exact ⟨ds, rfl⟩

theorem forStmt (hr : Readable n) (hn : sizeOf cs ≤ n) (h : Spells Rule.forStmt.phrase cs) :
    ∃ (head : ForHead) (body : Statement), cs = head.trees ++ [body.tree] := by
  simp only [Rule.phrase, Phrase.row, spells_seq] at h
  obtain ⟨xs, hx, _, ⟨us, hu, _, ⟨is, hi, _, ⟨ms, hm, _, ⟨ps, hp, _, ⟨vs, hv, _,
    ⟨qs, hq, ys, hy, rfl⟩, rfl⟩, rfl⟩, rfl⟩, rfl⟩, rfl⟩, rfl⟩ := h
  obtain ⟨init, rfl⟩ := spells_forInit hi
  obtain ⟨condition, rfl⟩ := spells_expression? hm
  obtain ⟨update, rfl⟩ := spells_expression? hv
  obtain ⟨body, rfl⟩ := hr.statement_of_subset hn hy (by grind)
  rw [spells_sign rfl hx, spells_sign rfl hu, spells_sign rfl hp, spells_sign rfl hq]
  exact ⟨⟨init, condition, update⟩, body, by simp [ForHead.trees]⟩

theorem ifStmt (hr : Readable n) (hn : sizeOf cs ≤ n) (h : Spells Rule.ifStmt.phrase cs) :
    ∃ (condition : Expression) (yes : Statement) (no : Option Statement),
      cs = [sign .ifWord, sign .openParen, condition.tree, sign .closeParen, yes.tree] ++
        (match no with
          | none => []
          | some no => [sign .elseWord, no.tree]) := by
  simp only [Rule.phrase, Phrase.row, spells_seq] at h
  obtain ⟨xs, hx, _, ⟨us, hu, _, ⟨ms, hm, _, ⟨ps, hp, _, ⟨vs, hv, ys, hy, rfl⟩, rfl⟩, rfl⟩, rfl⟩,
    rfl⟩ := h
  obtain ⟨condition, rfl⟩ := spells_expression hm
  obtain ⟨yes, rfl⟩ := hr.statement_of_subset hn hv (by grind)
  rw [spells_sign rfl hx, spells_sign rfl hu, spells_sign rfl hp] at hn ⊢
  rcases spells_option.mp hy with rfl | hy
  · exact ⟨condition, yes, none, by simp⟩
  · obtain ⟨es, he, fs, hf, rfl⟩ := spells_seq.mp hy
    obtain ⟨no, rfl⟩ := hr.statement_of_subset hn hf (by grind)
    rw [spells_sign rfl he]
    exact ⟨condition, yes, some no, by simp⟩

theorem whileStmt (hr : Readable n) (hn : sizeOf cs ≤ n) (h : Spells Rule.whileStmt.phrase cs) :
    ∃ (condition : Expression) (body : Statement),
      cs = [sign .whileWord, sign .openParen, condition.tree, sign .closeParen, body.tree] := by
  simp only [Rule.phrase, Phrase.row, spells_seq] at h
  obtain ⟨xs, hx, _, ⟨us, hu, _, ⟨ms, hm, _, ⟨ps, hp, ys, hy, rfl⟩, rfl⟩, rfl⟩, rfl⟩ := h
  obtain ⟨condition, rfl⟩ := spells_expression hm
  obtain ⟨body, rfl⟩ := hr.statement_of_subset hn hy (by grind)
  rw [spells_sign rfl hx, spells_sign rfl hu, spells_sign rfl hp]
  exact ⟨condition, body, by simp⟩

theorem block (hr : Readable n) (hn : sizeOf cs ≤ n) (h : Spells Rule.block.phrase cs) :
    ∃ body, cs = sign .openBrace :: Declaration.trees body ++ [sign .closeBrace] := by
  simp only [Rule.phrase, Phrase.row, spells_seq] at h
  obtain ⟨xs, hx, _, ⟨us, hu, ys, hy, rfl⟩, rfl⟩ := h
  obtain ⟨body, rfl⟩ := hr.declarations_of_subset hn hu (by grind)
  rw [spells_sign rfl hx, spells_sign rfl hy]
  exact ⟨body, by simp⟩

theorem function (hr : Readable n) (hn : sizeOf cs ≤ n) (h : Spells Rule.function.phrase cs) :
    ∃ (name : Name) (params : Option Params) (body : List Declaration),
      cs = [name.tree, sign .openParen] ++ Params.trees params ++ [sign .closeParen,
        .node .block (sign .openBrace :: Declaration.trees body ++ [sign .closeBrace])] := by
  simp only [Rule.phrase, Phrase.row, spells_seq] at h
  obtain ⟨us, hu, _, ⟨ps, hp, _, ⟨qs, hq, _, ⟨rs, hr', zs, hz, rfl⟩, rfl⟩, rfl⟩, rfl⟩ := h
  obtain ⟨bs, hb, rfl⟩ := spells_rule.mp hz
  have hsize : sizeOf bs < _ := sizeOf_children (r := .block) (List.mem_append_right us
    (List.mem_append_right ps (List.mem_append_right qs (List.mem_append_right rs
      (List.mem_singleton_self _)))))
  obtain ⟨name, rfl⟩ := spells_identifier hu
  obtain ⟨params, rfl⟩ := spells_params? hq
  obtain ⟨body, rfl⟩ := hr.block (by omega) hb
  rw [spells_sign rfl hp, spells_sign rfl hr']
  exact ⟨name, params, body, by simp⟩

theorem statement_succ (hr : Readable n) (hn : sizeOf cs ≤ n) (h : Spells Rule.statement.phrase cs) :
    ∃ s : Statement, s.tree = .node .statement cs := by
  simp only [Rule.phrase, Phrase.choose, spells_either] at h
  rcases h with h | h | h | h | h | h | h
  · obtain ⟨e, rfl⟩ := spells_exprStmt h
    exact ⟨.expression e, by rw [Statement.tree]⟩
  · obtain ⟨ds, hd, rfl⟩ := spells_rule.mp h
    have hsize := sizeOf_children (List.mem_singleton_self (Tree.node .forStmt ds))
    obtain ⟨head, body, rfl⟩ := hr.forStmt (by omega) hd
    exact ⟨.forLoop head body, by rw [Statement.tree]⟩
  · obtain ⟨ds, hd, rfl⟩ := spells_rule.mp h
    have hsize := sizeOf_children (List.mem_singleton_self (Tree.node .ifStmt ds))
    obtain ⟨condition, yes, no, rfl⟩ := hr.ifStmt (by omega) hd
    cases no with
    | none => exact ⟨.ifThen condition yes, by simp [Statement.tree]⟩
    | some no => exact ⟨.ifElse condition yes no, by simp [Statement.tree]⟩
  · obtain ⟨ds, hd, rfl⟩ := spells_rule.mp h
    simp only [Rule.phrase, Phrase.row, spells_seq] at hd
    obtain ⟨xs, hx, _, ⟨us, hu, ys, hy, rfl⟩, rfl⟩ := hd
    obtain ⟨e, rfl⟩ := spells_expression hu
    rw [spells_sign rfl hx, spells_sign rfl hy]
    exact ⟨.print e, by simp [Statement.tree]⟩
  · obtain ⟨ds, hd, rfl⟩ := spells_rule.mp h
    simp only [Rule.phrase, Phrase.row, spells_seq] at hd
    obtain ⟨xs, hx, _, ⟨us, hu, ys, hy, rfl⟩, rfl⟩ := hd
    obtain ⟨value, rfl⟩ := spells_expression? hu
    rw [spells_sign rfl hx, spells_sign rfl hy]
    exact ⟨.giveBack value, by simp [Statement.tree]⟩
  · obtain ⟨ds, hd, rfl⟩ := spells_rule.mp h
    have hsize := sizeOf_children (List.mem_singleton_self (Tree.node .whileStmt ds))
    obtain ⟨condition, body, rfl⟩ := hr.whileStmt (by omega) hd
    exact ⟨.whileLoop condition body, by rw [Statement.tree]⟩
  · obtain ⟨ds, hd, rfl⟩ := spells_rule.mp h
    have hsize := sizeOf_children (List.mem_singleton_self (Tree.node .block ds))
    obtain ⟨body, rfl⟩ := hr.block (by omega) hd
    exact ⟨.block body, by rw [Statement.tree]⟩

theorem declaration_succ (hr : Readable n) (hn : sizeOf cs ≤ n)
    (h : Spells Rule.declaration.phrase cs) : ∃ d : Declaration, d.tree = .node .declaration cs := by
  simp only [Rule.phrase, Phrase.choose, spells_either] at h
  rcases h with h | h | h | h
  · obtain ⟨parts, -, rfl⟩ := spells_rule.mp h
    exact ⟨.classType parts, by rw [Declaration.tree]⟩
  · obtain ⟨ds, hd, rfl⟩ := spells_rule.mp h
    simp only [Rule.phrase, Phrase.row, spells_seq] at hd
    obtain ⟨xs, hx, ys, hy, rfl⟩ := hd
    obtain ⟨fs, hf, rfl⟩ := spells_rule.mp hy
    have hsize := sizeOf_children (List.mem_append_right xs (List.mem_singleton_self (Tree.node .function fs)))
    have hsize' := sizeOf_children (List.mem_singleton_self (Tree.node .funDecl (xs ++ [.node .function fs])))
    obtain ⟨name, params, body, rfl⟩ := hr.function (by omega) hf
    rw [spells_sign rfl hx]
    exact ⟨.function name params body, by simp [Declaration.tree]⟩
  · obtain ⟨v, rfl⟩ := spells_varDecl h
    exact ⟨.variable v, by rw [Declaration.tree]⟩
  · obtain ⟨s, rfl⟩ := hr.statement_of_subset hn h (by simp)
    exact ⟨.statement s, by rw [Declaration.tree]⟩

end Readable

theorem readable (n : Nat) : Readable n := by
  induction n with
  | zero => exact ⟨fun cs hn => absurd hn (Nat.not_lt_zero _), fun cs hn => absurd hn (Nat.not_lt_zero _)⟩
  | succ n ih =>
    exact ⟨fun cs hn => ih.statement_succ (Nat.le_of_lt_succ hn),
      fun cs hn => ih.declaration_succ (Nat.le_of_lt_succ hn)⟩

theorem exists_program {cs : List Tree} (h : Spells Rule.program.phrase cs) :
    ∃ p : Program, p.tree = .node .program cs := by
  simp only [Rule.phrase, Phrase.row, spells_seq] at h
  obtain ⟨xs, hx, ys, hy, rfl⟩ := h
  obtain ⟨ds, rfl⟩ := (readable _).declarations_of_subset (Nat.le_refl _) hx (fun t ht => ht)
  rw [spells_eof hy]
  exact ⟨⟨ds⟩, rfl⟩

theorem parseText_program {text : String} {d : Derived} (h : parseText .program text = .ok d) :
    ∃ p : Program, p.tree = d.tree := by
  obtain ⟨cs, hc, hd⟩ := spells_rule.mp (parseText_spells h)
  obtain ⟨p, hp⟩ := exists_program hc
  exact ⟨p, hp.trans (List.cons.inj hd).1.symm⟩

def passes (text : String) (P : Derived → Bool) : Bool :=
  match parseText .program text with
  | .ok d => P d
  | .error _ => false

theorem exists_derived (text : String) (P : Derived → Bool) (h : passes text P = true) :
    ∃ d, parseText .program text = .ok d ∧ P d = true := by
  rw [passes] at h
  split at h
  · next d hd => exact ⟨d, hd, h⟩
  · cases h

theorem exists_derived_tree (text : String) (p : Program) (h : passes text (fun d => p.tree = d.tree) = true) :
    ∃ d, parseText .program text = .ok d ∧ p.tree = d.tree := by
  obtain ⟨d, hd, htree⟩ := exists_derived text _ h
  exact ⟨d, hd, of_decide_eq_true htree⟩

theorem exists_derived_of_tree {r : Rule} {text : String} {t : Tree}
    (h : (parseText r text).toOption.map Derived.tree = some t) : ∃ d, parseText r text = .ok d ∧ d.tree = t := by
  cases hd : parseText r text with
  | error e => rw [hd] at h; cases h
  | ok d => rw [hd] at h; exact ⟨d, rfl, Option.some.inj h⟩

def Expression.ofPrimary (p : Primary) : Expression :=
  .assignment (.operation (.ofUnary (.call (.primary p []))))

end Syntax

end CompiScript
