import CompiScript.Proofs.Members.Expressions

namespace CompiScript

open Syntax Step
open CompiScript.Tree

section Replaced

variable {x : String} {z : Name}

namespace Syntax

section Form

variable {o r : Rule} {cs cs' : List Tree} {t' : Tree}

theorem exists_form (h : MemberReplaced x z (.node o [.node r cs]) t') (ho : o ≠ .assignment ∧ o ≠ .primary)
    (hr : r ≠ .assignment ∧ r ≠ .primary) : ∃ cs', t' = .node o [.node r cs'] ∧ MemberReplacedIn x z cs cs' := by
  obtain ⟨_, rfl, hform⟩ := h.exists_node ho
  obtain ⟨_, rfl, hnode⟩ := hform.only
  obtain ⟨cs', rfl, hcs⟩ := hnode.exists_node hr
  exact ⟨cs', rfl, hcs⟩

theorem erase_form (h : eraseAll cs' = eraseAll cs) :
    (Tree.node o [.node r cs']).erase = (Tree.node o [.node r cs]).erase :=
  erase_congr (by simp only [eraseAll, erase_congr h])

end Form

theorem block_replaced {ds : List Declaration}
    (hds : ∀ {ts' : List Tree}, MemberReplacedIn x z (Declaration.trees ds) ts' →
      ∃ ds', ts' = Declaration.trees ds' ∧ (eraseAll ts' = eraseAll (Declaration.trees ds) ∨
        ∀ owner, Diverges x z.text (Declaration.stepsAll owner ds) (Declaration.stepsAll owner ds'))) {ts' : List Tree}
    (h : MemberReplacedIn x z (sign .openBrace :: Declaration.trees ds ++ [sign .closeBrace]) ts') :
    ∃ ds', ts' = sign .openBrace :: Declaration.trees ds' ++ [sign .closeBrace] ∧
      (eraseAll ts' = eraseAll (sign .openBrace :: Declaration.trees ds ++ [sign .closeBrace]) ∨
        ∀ owner, Diverges x z.text (Declaration.stepsAll owner ds) (Declaration.stepsAll owner ds')) := by
  obtain ⟨_, rfl, h₁⟩ := MemberReplacedIn.of_leaf h
  rcases h₁.append with ⟨_, rfl, hbody⟩ | ⟨_, rfl, hlast⟩
  · obtain ⟨ds', rfl, hkept⟩ := hds hbody
    refine ⟨ds', rfl, hkept.imp_left fun herase => ?_⟩
    simp only [List.cons_append, eraseAll, eraseAll_append, herase]
    rfl
  · obtain ⟨_, rfl, hnil⟩ := hlast.of_leaf
    cases hnil

theorem condition_replaced {k : Kind} {e : Expression} (rest : List Tree) {cs' : List Tree}
    (h : MemberReplacedIn x z ([sign k, sign .openParen, e.tree, sign .closeParen] ++ rest) cs') :
    (∃ e' : Expression, cs' = [sign k, sign .openParen, e'.tree, sign .closeParen] ++ rest ∧
      (eraseAll cs' = eraseAll ([sign k, sign .openParen, e.tree, sign .closeParen] ++ rest) ∨
        Diverges x z.text e.steps e'.steps)) ∨
      ∃ rest', cs' = [sign k, sign .openParen, e.tree, sign .closeParen] ++ rest' ∧
        MemberReplacedIn x z rest rest' := by
  rcases h.append with ⟨_, rfl, hfront⟩ | hrest
  · obtain ⟨_, rfl, h₁⟩ := hfront.of_leaf
    obtain ⟨_, rfl, h₂⟩ := h₁.of_leaf
    rcases h₂ with he | h₃
    · obtain ⟨e', rfl, hkept⟩ := e.replaced he
      refine .inl ⟨e', rfl, hkept.imp_left fun herase => ?_⟩
      simp only [eraseAll_append, eraseAll, herase]
      rfl
    · obtain ⟨_, rfl, hnil⟩ := h₃.of_leaf
      cases hnil
  · exact .inr hrest

-- The member is in one part of the statement. The steps before that part are the same, and in the second list those
-- behind the step that looks for the member are not reached.

mutual

theorem Statement.replaced : ∀ (s : Statement) {t' : Tree}, MemberReplaced x z s.tree t' →
    ∃ s' : Statement, t' = s'.tree ∧ (t'.erase = s.tree.erase ∨
      ∀ scope owner, Diverges x z.text (s.steps scope owner) (s'.steps scope owner))
  | .expression e, t', h => by
    rw [Statement.tree] at h ⊢
    obtain ⟨_, rfl, hform⟩ := h.exists_node (by decide)
    obtain ⟨_, rfl, he⟩ := hform.only
    obtain ⟨e', rfl, hkept⟩ := exprStmt_replaced e he
    refine ⟨.expression e', by rw [Statement.tree], hkept.imp ?_ ?_⟩
    · intro herase
      apply erase_congr
      simp only [eraseAll, herase]
    · intro hdiverges _ _
      exact hdiverges
  | .forLoop head body, t', h => by
    rw [Statement.tree] at h ⊢
    obtain ⟨cs', rfl, hcs⟩ := exists_form h (by decide) (by decide)
    rcases hcs.append with ⟨_, rfl, hhead⟩ | ⟨_, rfl, hlast⟩
    · obtain ⟨head', rfl, hkept⟩ := head.replaced hhead
      refine ⟨.forLoop head' body, by rw [Statement.tree], hkept.imp ?_ ?_⟩
      · intro herase
        apply erase_form
        simp only [eraseAll_append, herase]
      · intro hdiverges _ _
        exact ((hdiverges.cons _).append_right _ _).append_right _ _
    · obtain ⟨_, rfl, hbody⟩ := hlast.only
      obtain ⟨body', rfl, hkept⟩ := Statement.replaced body hbody
      refine ⟨.forLoop head body', by rw [Statement.tree], hkept.imp ?_ ?_⟩
      · intro herase
        apply erase_form
        simp only [eraseAll_append, eraseAll, herase]
      · intro hdiverges _ _
        exact (((hdiverges none none).cons _).append_left _).append_right _ _
  | .ifThen condition yes, t', h => by
    rw [Statement.tree] at h ⊢
    obtain ⟨cs', rfl, hcs⟩ := exists_form h (by decide) (by decide)
    rcases condition_replaced [yes.tree] hcs with ⟨condition', rfl, hkept⟩ | ⟨_, rfl, hrest⟩
    · refine ⟨.ifThen condition' yes, by rw [Statement.tree]; rfl, hkept.imp erase_form ?_⟩
      intro hdiverges _ _
      exact hdiverges.append_right _ _
    · obtain ⟨_, rfl, hyes⟩ := hrest.only
      obtain ⟨yes', rfl, hkept⟩ := Statement.replaced yes hyes
      refine ⟨.ifThen condition yes', by rw [Statement.tree]; rfl, hkept.imp ?_ ?_⟩
      · intro herase
        apply erase_form
        simp only [List.cons_append, List.nil_append, eraseAll, herase]
      · intro hdiverges _ _
        exact ((hdiverges _ _).cons _).append_left _
  | .ifElse condition yes no, t', h => by
    rw [Statement.tree] at h ⊢
    obtain ⟨cs', rfl, hcs⟩ := exists_form h (by decide) (by decide)
    rcases condition_replaced [yes.tree, sign .elseWord, no.tree] hcs with
      ⟨condition', rfl, hkept⟩ | ⟨_, rfl, hrest⟩
    · refine ⟨.ifElse condition' yes no, by rw [Statement.tree]; rfl, hkept.imp erase_form ?_⟩
      intro hdiverges _ _
      exact (hdiverges.append_right _ _).append_right _ _
    · rcases hrest with hyes | hrest
      · obtain ⟨yes', rfl, hkept⟩ := Statement.replaced yes hyes
        refine ⟨.ifElse condition yes' no, by rw [Statement.tree]; rfl, hkept.imp ?_ ?_⟩
        · intro herase
          apply erase_form
          simp only [List.cons_append, List.nil_append, eraseAll, herase]
        · intro hdiverges _ _
          exact (((hdiverges _ _).cons _).append_left _).append_right _ _
      · obtain ⟨_, rfl, hlast⟩ := hrest.of_leaf
        obtain ⟨_, rfl, hno⟩ := hlast.only
        obtain ⟨no', rfl, hkept⟩ := Statement.replaced no hno
        refine ⟨.ifElse condition yes no', by rw [Statement.tree]; rfl, hkept.imp ?_ ?_⟩
        · intro herase
          apply erase_form
          simp only [List.cons_append, List.nil_append, eraseAll, herase]
          rfl
        · intro hdiverges _ _
          exact (hdiverges _ _).append_left _
  | .print e, t', h => by
    rw [Statement.tree] at h ⊢
    obtain ⟨cs', rfl, hcs⟩ := exists_form h (by decide) (by decide)
    obtain ⟨_, rfl, hrest⟩ := hcs.of_leaf
    rcases hrest with he | hlast
    · obtain ⟨e', rfl, hkept⟩ := e.replaced he
      refine ⟨.print e', by rw [Statement.tree]; rfl, hkept.imp ?_ ?_⟩
      · intro herase
        apply erase_form
        simp only [eraseAll, herase]
        rfl
      · intro hdiverges _ _
        exact (hdiverges.cons _).append_right _ _
    · obtain ⟨_, rfl, hnil⟩ := hlast.of_leaf
      cases hnil
  | .giveBack value, t', h => by
    rw [Statement.tree] at h ⊢
    obtain ⟨cs', rfl, hcs⟩ := exists_form h (by decide) (by decide)
    rcases hcs.append with ⟨_, rfl, hfront⟩ | ⟨_, rfl, hlast⟩
    · obtain ⟨_, rfl, hvalue⟩ := hfront.of_leaf
      obtain ⟨e, e', rfl, rfl, hkept⟩ := Expression.trees_replaced hvalue
      refine ⟨.giveBack (some e'), by rw [Statement.tree]; rfl, hkept.imp ?_ ?_⟩
      · intro herase
        apply erase_form
        simp only [List.cons_append, eraseAll, eraseAll_append, List.nil_append, herase]
        rfl
      · intro hdiverges _ _
        exact hdiverges.append_right _ _
    · obtain ⟨_, rfl, hnil⟩ := hlast.of_leaf
      cases hnil
  | .whileLoop condition body, t', h => by
    rw [Statement.tree] at h ⊢
    obtain ⟨cs', rfl, hcs⟩ := exists_form h (by decide) (by decide)
    rcases condition_replaced [body.tree] hcs with ⟨condition', rfl, hkept⟩ | ⟨_, rfl, hrest⟩
    · refine ⟨.whileLoop condition' body, by rw [Statement.tree]; rfl, hkept.imp erase_form ?_⟩
      intro hdiverges _ _
      exact hdiverges.append_right _ _
    · obtain ⟨_, rfl, hbody⟩ := hrest.only
      obtain ⟨body', rfl, hkept⟩ := Statement.replaced body hbody
      refine ⟨.whileLoop condition body', by rw [Statement.tree]; rfl, hkept.imp ?_ ?_⟩
      · intro herase
        apply erase_form
        simp only [List.cons_append, List.nil_append, eraseAll, herase]
      · intro hdiverges _ _
        exact ((hdiverges _ _).cons _).append_left _
  | .block body, t', h => by
    rw [Statement.tree] at h ⊢
    obtain ⟨cs', rfl, hcs⟩ := exists_form h (by decide) (by decide)
    obtain ⟨body', rfl, hkept⟩ := block_replaced (Declaration.trees_replaced body) hcs
    refine ⟨.block body', by rw [Statement.tree], hkept.imp erase_form ?_⟩
    intro hdiverges _ _
    exact ((hdiverges none).cons _).append_right _ _

theorem Declaration.replaced : ∀ (d : Declaration) {t' : Tree}, MemberReplaced x z d.tree t' →
    ∃ d' : Declaration, t' = d'.tree ∧ (t'.erase = d.tree.erase ∨
      ∀ owner, Diverges x z.text (d.steps owner) (d'.steps owner))
  | .classType parts, t', h => by
    rw [Declaration.tree] at h ⊢
    obtain ⟨parts', rfl, -⟩ := exists_form h (by decide) (by decide)
    exact ⟨.classType parts', by rw [Declaration.tree], .inl rfl⟩
  | .function name params body, t', h => by
    rw [Declaration.tree] at h ⊢
    obtain ⟨cs', rfl, hcs⟩ := exists_form h (by decide) (by decide)
    obtain ⟨_, rfl, h₁⟩ := hcs.of_leaf
    obtain ⟨_, rfl, hfunction⟩ := h₁.only
    obtain ⟨_, rfl, hparts⟩ := hfunction.exists_node (by decide)
    rcases hparts.append with ⟨_, rfl, hfront⟩ | ⟨_, rfl, hback⟩
    · obtain ⟨_, rfl, h₂⟩ := hfront.of_leaf
      obtain ⟨_, rfl, h₃⟩ := h₂.of_leaf
      exact absurd h₃ (Params.not_replaced params)
    · obtain ⟨_, rfl, h₂⟩ := hback.of_leaf
      obtain ⟨_, rfl, hblock⟩ := h₂.only
      obtain ⟨_, rfl, hbody⟩ := hblock.exists_node (by decide)
      obtain ⟨body', rfl, hkept⟩ := block_replaced (Declaration.trees_replaced body) hbody
      refine ⟨.function name params body', by rw [Declaration.tree]; rfl, hkept.imp ?_ ?_⟩
      · intro herase
        apply erase_form
        refine congrArg (fun t => [sign .funWord, t]) (erase_congr ?_)
        rw [eraseAll_append, eraseAll_append _ [sign .closeParen, _]]
        exact congrArg (fun t => eraseAll _ ++ [sign .closeParen, t]) (erase_congr herase)
      · intro hdiverges _
        have hinside := ((hdiverges (some name.text)).cons (enter ("Function " ++ name.text ++ " Body"))).append_left
          (Params.steps name.text params)
        exact ((hinside.append_right _ _).cons _).cons _
  | .variable v, t', h => by
    rw [Declaration.tree] at h ⊢
    obtain ⟨_, rfl, hcs⟩ := h.exists_node (by decide)
    obtain ⟨_, rfl, hv⟩ := hcs.only
    obtain ⟨v', rfl, hkept⟩ := v.replaced hv
    refine ⟨.variable v', by rw [Declaration.tree], hkept.imp ?_ ?_⟩
    · intro herase
      apply erase_congr
      simp only [eraseAll, herase]
    · intro hdiverges _
      exact hdiverges
  | .statement s, t', h => by
    rw [Declaration.tree] at h ⊢
    obtain ⟨_, rfl, hcs⟩ := h.exists_node (by decide)
    obtain ⟨_, rfl, hs⟩ := hcs.only
    obtain ⟨s', rfl, hkept⟩ := Statement.replaced s hs
    refine ⟨.statement s', by rw [Declaration.tree], hkept.imp ?_ ?_⟩
    · intro herase
      apply erase_congr
      simp only [eraseAll, herase]
    · intro hdiverges owner
      exact hdiverges none owner

theorem Declaration.trees_replaced : ∀ (ds : List Declaration) {ts' : List Tree},
    MemberReplacedIn x z (Declaration.trees ds) ts' →
    ∃ ds', ts' = Declaration.trees ds' ∧ (eraseAll ts' = eraseAll (Declaration.trees ds) ∨
      ∀ owner, Diverges x z.text (Declaration.stepsAll owner ds) (Declaration.stepsAll owner ds'))
  | [], ts', h => nomatch h
  | d :: ds, ts', h => by
    rw [Declaration.trees] at h ⊢
    rcases h with hd | hds
    · obtain ⟨d', rfl, hkept⟩ := Declaration.replaced d hd
      refine ⟨d' :: ds, by rw [Declaration.trees], hkept.imp ?_ ?_⟩
      · intro herase
        simp only [eraseAll, herase]
      · intro hdiverges owner
        exact (hdiverges owner).append_right _ _
    · obtain ⟨ds', rfl, hkept⟩ := Declaration.trees_replaced ds hds
      refine ⟨d :: ds', by rw [Declaration.trees], hkept.imp ?_ ?_⟩
      · intro herase
        simp only [eraseAll, herase]
      · intro hdiverges owner
        exact (hdiverges owner).append_left _

end

theorem Program.replaced (p : Program) {t' : Tree} (h : MemberReplaced x z p.tree t') :
    ∃ p' : Program, t' = p'.tree ∧ (t'.erase = p.tree.erase ∨ Diverges x z.text p.steps p'.steps) := by
  rw [tree] at h ⊢
  obtain ⟨_, rfl, hcs⟩ := h.exists_node (by decide)
  rcases hcs.append with ⟨_, rfl, hbody⟩ | ⟨_, rfl, hlast⟩
  · obtain ⟨body', rfl, herase | hdiverges⟩ := Declaration.trees_replaced p.body hbody
    · exact ⟨⟨body'⟩, rfl, .inl (erase_congr (by simp only [eraseAll_append, herase]))⟩
    · exact ⟨⟨body'⟩, rfl, .inr (hdiverges none)⟩
  · obtain ⟨_, rfl, hnil⟩ := hlast.of_leaf
    cases hnil

end Syntax

end Replaced

end CompiScript
