import CompiScript.Proofs.Members.Replaced

namespace CompiScript

open Syntax Step
open CompiScript.Tree

section Replaced

variable {x : String} {z : Name}

def Diverges (x z : String) (steps steps' : List Step) : Prop :=
  ∃ before s s' after after', steps = before ++ s :: after ∧ steps' = before ++ s' :: after' ∧
    ∀ g : Stage, g.scopes.find? z (some .variables) = none → Misses x z g.toStanding (s.run g) (s'.run g)

namespace Diverges

variable {x z : String} {steps steps' : List Step}

theorem append_left (h : Diverges x z steps steps') (front : List Step) :
    Diverges x z (front ++ steps) (front ++ steps') := by
  obtain ⟨before, s, s', after, after', rfl, rfl, hmisses⟩ := h
  exact ⟨front ++ before, s, s', after, after', (List.append_assoc ..).symm, (List.append_assoc ..).symm, hmisses⟩

theorem append_right (h : Diverges x z steps steps') (back back' : List Step) :
    Diverges x z (steps ++ back) (steps' ++ back') := by
  obtain ⟨before, s, s', after, after', rfl, rfl, hmisses⟩ := h
  refine ⟨before, s, s', after ++ back, after' ++ back', ?_, ?_, hmisses⟩
  · rw [List.append_assoc, List.cons_append]
  · rw [List.append_assoc, List.cons_append]

theorem cons (h : Diverges x z steps steps') (s : Step) : Diverges x z (s :: steps) (s :: steps') :=
  h.append_left [s]

theorem weigh {e e' : LogicOr} (h : ∀ k : Standing, k.scopes.find? z (some .variables) = none →
    Misses x z k (e.type k) (e'.type k)) : Diverges x z [.weigh e] [.weigh e'] := by
  refine ⟨[], .weigh e, .weigh e', [], [], rfl, rfl, fun g hz => ?_⟩
  exact (h g.toStanding hz).bind (fun t => .ok { g with type := t }) (fun t => .ok { g with type := t })

end Diverges

namespace Syntax

theorem Assignment.replaced (a : Assignment) {t' : Tree} (h : MemberReplaced x z a.tree t') :
    ∃ a' : Assignment, t' = a'.tree ∧ (t'.erase = a.tree.erase ∨ Diverges x z.text a.steps a'.steps) := by
  induction a generalizing t' with
  | operation e =>
    rw [tree] at h ⊢
    rcases h with _ | _ | hcs
    obtain ⟨_, rfl, he⟩ := hcs.only
    obtain ⟨e', rfl, herase | hrenames⟩ := LogicOr.replaced e he
    · exact ⟨.operation e', rfl, .inl (erase_congr (by simp only [eraseAll, herase]))⟩
    · exact ⟨.operation e', rfl, .inr (.weigh hrenames)⟩
  | assign object target value ih =>
    cases object with
    | none =>
      rw [tree] at h ⊢
      rcases h with _ | _ | hcs
      obtain ⟨_, rfl, h₁⟩ := hcs.of_leaf
      obtain ⟨_, rfl, h₂⟩ := h₁.of_leaf
      obtain ⟨_, rfl, hvalue⟩ := h₂.only
      obtain ⟨value', rfl, herase | hdiverges⟩ := ih hvalue
      · exact ⟨.assign none target value', rfl, .inl (erase_congr (by simp only [eraseAll, herase]; rfl))⟩
      · exact ⟨.assign none target value', rfl, .inr ((hdiverges.append_right _ _).cons _)⟩
    | some parts =>
      rw [tree] at h ⊢
      rcases h with _ | _ | hcs
      · refine ⟨.assign (some parts) z value, rfl, .inr ?_⟩
        exact ⟨[], aim target.text, aim z.text, _, _, rfl, rfl, fun g hz => misses_aim hz⟩
      rcases hcs with hobject | h₁
      · obtain ⟨parts', rfl, -⟩ := hobject.exists_node (by decide)
        exact ⟨.assign (some parts') target value, rfl, .inl rfl⟩
      obtain ⟨_, rfl, h₂⟩ := h₁.of_leaf
      obtain ⟨_, rfl, h₃⟩ := h₂.of_leaf
      obtain ⟨_, rfl, h₄⟩ := h₃.of_leaf
      obtain ⟨_, rfl, hvalue⟩ := h₄.only
      obtain ⟨value', rfl, herase | hdiverges⟩ := ih hvalue
      · exact ⟨.assign (some parts) target value', rfl, .inl (erase_congr (by simp only [eraseAll, herase]; rfl))⟩
      · exact ⟨.assign (some parts) target value', rfl, .inr ((hdiverges.append_right _ _).cons _)⟩

theorem Expression.replaced (e : Expression) {t' : Tree} (h : MemberReplaced x z e.tree t') :
    ∃ e' : Expression, t' = e'.tree ∧ (t'.erase = e.tree.erase ∨ Diverges x z.text e.steps e'.steps) := by
  cases e with
  | assignment a =>
    rw [tree] at h ⊢
    obtain ⟨cs', rfl, hcs⟩ := h.exists_node (by decide)
    obtain ⟨_, rfl, ha⟩ := hcs.only
    obtain ⟨a', rfl, hkept⟩ := a.replaced ha
    refine ⟨.assignment a', rfl, hkept.imp_left fun herase => erase_congr ?_⟩
    simp only [eraseAll, herase]
  | function parts =>
    rw [tree] at h ⊢
    obtain ⟨cs', rfl, hcs⟩ := h.exists_node (by decide)
    obtain ⟨_, rfl, hfunction⟩ := hcs.only
    obtain ⟨parts', rfl, -⟩ := hfunction.exists_node (by decide)
    exact ⟨.function parts', rfl, .inl rfl⟩

theorem Expression.trees_replaced {e : Option Expression} {ts' : List Tree}
    (h : MemberReplacedIn x z (Expression.trees e) ts') :
    ∃ u u', e = some u ∧ ts' = Expression.trees (some u') ∧
      (eraseAll ts' = eraseAll (Expression.trees e) ∨ Diverges x z.text u.steps u'.steps) := by
  cases e with
  | none => cases h
  | some u =>
    obtain ⟨_, rfl, hu⟩ := MemberReplacedIn.only h
    obtain ⟨u', rfl, hkept⟩ := u.replaced hu
    refine ⟨u, u', rfl, rfl, hkept.imp_left fun herase => ?_⟩
    simp only [trees, eraseAll, herase]

theorem VarDecl.replaced (v : VarDecl) {t' : Tree} (h : MemberReplaced x z v.tree t') :
    ∃ v' : VarDecl, t' = v'.tree ∧ (t'.erase = v.tree.erase ∨ Diverges x z.text v.steps v'.steps) := by
  obtain ⟨name, value⟩ := v
  rw [tree] at h ⊢
  obtain ⟨cs', rfl, hcs⟩ := h.exists_node (by decide)
  obtain ⟨_, rfl, h₁⟩ := hcs.of_leaf
  obtain ⟨_, rfl, h₂⟩ := h₁.of_leaf
  cases value with
  | none =>
    obtain ⟨_, rfl, h₃⟩ := h₂.of_leaf
    cases h₃
  | some e =>
    obtain ⟨_, rfl, h₃⟩ := h₂.of_leaf
    rcases h₃ with he | h₄
    · obtain ⟨e', rfl, herase | hdiverges⟩ := e.replaced he
      · refine ⟨⟨name, some e'⟩, rfl, .inl (erase_congr ?_)⟩
        simp only [valueTrees, List.cons_append, List.nil_append, eraseAll, herase]
        rfl
      · exact ⟨⟨name, some e'⟩, rfl, .inr ((hdiverges.append_right _ _).cons _)⟩
    · obtain ⟨_, rfl, h₅⟩ := h₄.of_leaf
      cases h₅

theorem exprStmt_replaced (e : Expression) {t' : Tree}
    (h : MemberReplaced x z (.node .exprStmt [e.tree, sign .semicolon]) t') :
    ∃ e' : Expression, t' = .node .exprStmt [e'.tree, sign .semicolon] ∧
      (t'.erase = (Tree.node .exprStmt [e.tree, sign .semicolon]).erase ∨ Diverges x z.text e.steps e'.steps) := by
  obtain ⟨cs', rfl, hcs⟩ := h.exists_node (by decide)
  rcases hcs with he | h₁
  · obtain ⟨e', rfl, hkept⟩ := e.replaced he
    refine ⟨e', rfl, hkept.imp_left fun herase => erase_congr ?_⟩
    simp only [eraseAll, herase]
  · obtain ⟨_, rfl, h₂⟩ := h₁.of_leaf
    cases h₂

theorem ForInit.replaced (i : ForInit) {t' : Tree} (h : MemberReplaced x z i.tree t') :
    ∃ i' : ForInit, t' = i'.tree ∧ (t'.erase = i.tree.erase ∨ Diverges x z.text i.steps i'.steps) := by
  cases i with
  | «variable» v =>
    obtain ⟨v', rfl, hkept⟩ := v.replaced h
    exact ⟨.variable v', rfl, hkept⟩
  | expression e =>
    obtain ⟨e', rfl, hkept⟩ := exprStmt_replaced e h
    exact ⟨.expression e', rfl, hkept⟩
  | nothing => cases h

theorem headSteps_diverges {c c' : Expression} (h : Diverges x z.text c.steps c'.steps) (es : List Expression) :
    Diverges x z.text (headSteps (c :: es)) (headSteps (c' :: es)) := by
  cases es with
  | nil => exact h.append_right _ _
  | cons u es => exact h.append_right _ _

theorem ForHead.replaced (head : ForHead) {ts' : List Tree} (h : MemberReplacedIn x z head.trees ts') :
    ∃ head' : ForHead, ts' = head'.trees ∧
      (eraseAll ts' = eraseAll head.trees ∨ Diverges x z.text head.steps head'.steps) := by
  obtain ⟨init, condition, update⟩ := head
  rw [trees] at h ⊢
  rcases h.append with ⟨_, rfl, h₁⟩ | ⟨_, rfl, hlast⟩
  case inr =>
    obtain ⟨_, rfl, hnil⟩ := hlast.of_leaf
    cases hnil
  rcases h₁.append with ⟨_, rfl, h₂⟩ | ⟨_, rfl, hupdate⟩
  case inr =>
    obtain ⟨u, u', rfl, rfl, herase | hdiverges⟩ := Expression.trees_replaced hupdate
    · exact ⟨⟨init, condition, some u'⟩, rfl, .inl (by simp only [eraseAll_append, herase])⟩
    · refine ⟨⟨init, condition, some u'⟩, rfl, .inr (Diverges.append_left ?_ _)⟩
      cases condition with
      | none => exact headSteps_diverges hdiverges []
      | some c => exact (hdiverges.cons _).append_left _
  rcases h₂.append with ⟨_, rfl, h₃⟩ | ⟨_, rfl, hmiddle⟩
  case inr =>
    obtain ⟨_, rfl, hnil⟩ := hmiddle.of_leaf
    cases hnil
  rcases h₃.append with ⟨_, rfl, h₄⟩ | ⟨_, rfl, hcondition⟩
  case inr =>
    obtain ⟨c, c', rfl, rfl, herase | hdiverges⟩ := Expression.trees_replaced hcondition
    · exact ⟨⟨init, some c', update⟩, rfl, .inl (by simp only [eraseAll_append, herase])⟩
    · exact ⟨⟨init, some c', update⟩, rfl, .inr ((headSteps_diverges hdiverges _).append_left _)⟩
  obtain ⟨_, rfl, h₅⟩ := h₄.of_leaf
  obtain ⟨_, rfl, h₆⟩ := h₅.of_leaf
  obtain ⟨_, rfl, hinit⟩ := h₆.only
  obtain ⟨init', rfl, herase | hdiverges⟩ := init.replaced hinit
  · refine ⟨⟨init', condition, update⟩, rfl, .inl ?_⟩
    simp only [eraseAll_append, eraseAll, herase]
    rfl
  · exact ⟨⟨init', condition, update⟩, rfl, .inr (hdiverges.append_right _ _)⟩

theorem Params.not_replaced (params : Option Params) {ts' : List Tree} :
    ¬MemberReplacedIn x z (Params.trees params) ts' := by
  have hrest : ∀ (names : List Name) {cs' : List Tree}, ¬MemberReplacedIn x z (restTrees names) cs' := by
    intro names
    induction names with
    | nil => nofun
    | cons y names ih =>
      intro cs' h
      obtain ⟨_, rfl, h₁⟩ := MemberReplacedIn.of_leaf h
      obtain ⟨_, rfl, h₂⟩ := h₁.of_leaf
      exact ih h₂
  intro h
  cases params with
  | none => cases h
  | some ps =>
    obtain ⟨_, rfl, htree⟩ := MemberReplacedIn.only h
    obtain ⟨_, rfl, hcs⟩ := htree.exists_node (by decide)
    obtain ⟨_, rfl, hmore⟩ := hcs.of_leaf
    exact hrest ps.rest hmore

end Syntax

end Replaced

end CompiScript
