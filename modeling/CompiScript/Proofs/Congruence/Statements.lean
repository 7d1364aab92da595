import CompiScript.Proofs.Congruence.Updates

namespace CompiScript

namespace Congruence

variable {B : Type} {Rel : B → Nat → Nat → {α : Type} → Analysis α → Analysis α → Prop}
  {Held : B → Option Reference → Prop} {u u' : Reference → Analysis Unit} {b : B} {n m : Nat}
  {v v' : Tree → Visit} {ts : List Tree}

section Rules

variable (H : Congruence Rel Held u u') (h : Parts Rel Held v v' ts)

include H h

theorem visitAll (last : Value) :
    Rel b n n (Analysis.visitAll last (ts.map (Tree.childBy v))) (Analysis.visitAll last (ts.map (Tree.childBy v'))) := by
  induction ts generalizing last with
  | nil => exact H.pure last
  | cons t ts ih => exact H.bind (h t (.head _) b n .alone H.held_none) fun x => ih h.tail x

theorem passOn (r : Rule) (text : String) :
    Rel b n n
      (match Analysis.rule? r (ts.map (Tree.childBy v)) with
        | some c => do Analysis.remark text; c.visit .alone
        | none => return .nothing)
      (match Analysis.rule? r (ts.map (Tree.childBy v')) with
        | some c => do Analysis.remark text; c.visit .alone
        | none => return .nothing) := by
  simp only [Analysis.rule?_childBy]
  cases ht : ts.find? fun t => t.isRule r with
  | some t => exact H.remark_bind (h.find ht H.held_none)
  | none => exact H.pure _

theorem visitDeclaration {manner : Manner} (hm : Held b manner.function) :
    Rel b n n (Analysis.visitDeclaration manner (ts.map (Tree.childBy v)))
      (Analysis.visitDeclaration manner (ts.map (Tree.childBy v'))) := by
  refine H.remark_bind ?_
  simp only [Analysis.rule?_childBy]
  cases hf : ts.find? fun t => t.isRule .funDecl with
  | some t => exact H.remark_bind (H.bind (H.discard (h.find hf H.held_none)) fun _ => H.pure _)
  | none =>
    cases hv : ts.find? fun t => t.isRule .varDecl with
    | some t => exact H.remark_bind (H.bind (H.discard (h.find hv H.held_none)) fun _ => H.pure _)
    | none =>
      cases hs : ts.find? fun t => t.isRule .statement with
      | some t => exact H.remark_bind (h.find hs hm)
      | none => exact H.pure _

theorem visitForms {manner : Manner} (hm : Held b manner.function) (forms : List (Rule × String)) :
    Rel b n n (Analysis.visitForms manner (ts.map (Tree.childBy v)) forms)
      (Analysis.visitForms manner (ts.map (Tree.childBy v')) forms) := by
  induction forms with
  | nil => exact H.pure _
  | cons form forms ih =>
    obtain ⟨r, word⟩ := form
    simp only [Analysis.visitForms, Analysis.rule?_childBy]
    cases ht : ts.find? fun t => t.isRule r with
    | none => exact ih
    | some t =>
      refine H.remark_bind ?_
      split
      · exact h.find ht hm
      · exact h.find ht H.held_none
      · exact h.find ht H.held_none

theorem visitForInit : Rel b n n (Analysis.visitForInit (ts.map (Tree.childBy v)))
    (Analysis.visitForInit (ts.map (Tree.childBy v'))) := by
  simp only [Analysis.visitForInit, Analysis.rule?_childBy]
  cases hv : ts.find? fun t => t.isRule .varDecl with
  | some t => exact H.remark_bind (H.discard (h.find hv H.held_none))
  | none =>
    cases he : ts.find? fun t => t.isRule .exprStmt with
    | some t => exact H.remark_bind (H.discard (h.find he H.held_none))
    | none => exact H.remark _

theorem visitForHead : Rel b n n (Analysis.visitForHead (ts.map (Tree.childBy v)))
    (Analysis.visitForHead (ts.map (Tree.childBy v'))) := by
  unfold Analysis.visitForHead
  extract_lets update update'
  have hupdate : ∀ x, Rel b n n (update x) (update' x) := by
    intro x
    simp only [update, update', List.getElem?_map]
    cases ht : ts[1]? with
    | some t => exact H.remark_bind (H.discard (h.get ht H.held_none))
    | none => exact H.remark _
  rw [List.getElem?_map, List.getElem?_map]
  cases ht : ts[0]? with
  | some t =>
    refine H.remark_bind (H.bind (H.typeOf (h.get ht H.held_none)) fun t => ?_)
    exact H.bind (H.check _) hupdate
  | none => exact H.bind (H.remark _) hupdate

theorem visitForStmt : Rel b n n (Analysis.visitForStmt (ts.map (Tree.childBy v)))
    (Analysis.visitForStmt (ts.map (Tree.childBy v'))) := by
  refine H.remark_bind (H.remark_bind (H.bind (H.enter _) fun _ => H.bind (visitForInit H h) fun _ => ?_))
  rw [Analysis.ofRule_childBy, Analysis.ofRule_childBy]
  refine H.bind (visitForHead H (h.filter _)) fun _ => ?_
  rw [Analysis.rule?_childBy, Analysis.rule?_childBy]
  cases ht : ts.find? fun t => t.isRule .statement with
  | some t =>
    refine H.remark_bind (H.bind (H.enter _) fun _ => H.bind (H.discard (h.find ht H.held_none)) fun _ => ?_)
    exact H.bind H.exit fun _ => H.remark_bind (H.bind H.exit fun _ => H.pure _)
  | none => exact H.remark_bind (H.bind H.exit fun _ => H.pure _)

theorem visitWhileStmt : Rel b n n (Analysis.visitWhileStmt (ts.map (Tree.childBy v)))
    (Analysis.visitWhileStmt (ts.map (Tree.childBy v'))) := by
  refine H.remark_bind ?_
  rw [Analysis.rule?_childBy, Analysis.rule?_childBy, Analysis.rule?_childBy, Analysis.rule?_childBy]
  cases ht : ts.find? fun t => t.isRule .expression with
  | none => exact H.throw_bind _
  | some t =>
    refine H.remark_bind (H.bind (H.typeOf (h.find ht H.held_none)) fun t => H.bind (H.check _) fun _ => ?_)
    cases hs : ts.find? fun t => t.isRule .statement with
    | some s => exact H.remark_bind (H.bind (H.discard (h.find hs H.held_none)) fun _ => H.pure _)
    | none => exact H.pure _

omit h in
theorem inferReturn {f : Option Reference} (hf : Held b f) (given : Option Ty) :
    Rel b n n (Analysis.inferReturn u f given) (Analysis.inferReturn u' f given) := by
  cases f with
  | none => exact H.throw _
  | some f =>
    refine H.bind (H.symbolOf f) fun symbol => ?_
    extract_lets type
    split
    · exact H.bind (H.changeAt hf fun _ => rfl) fun _ => H.bind (H.update hf) fun _ => H.remark _
    · split
      · exact H.throw _
      · exact H.pure _

theorem visitReturnStmt {manner : Manner} (hm : Held b manner.function) :
    Rel b n n (Analysis.visitReturnStmt u manner (ts.map (Tree.childBy v)))
      (Analysis.visitReturnStmt u' manner (ts.map (Tree.childBy v'))) := by
  refine H.remark_bind ?_
  rw [Analysis.rule?_childBy, Analysis.rule?_childBy]
  cases ht : ts.find? fun t => t.isRule .expression with
  | some t =>
    refine H.remark_bind (H.bind (H.typeOf (h.find ht H.held_none)) fun t => ?_)
    refine H.get_bind (fun _ _ => rfl) fun s => ?_
    split
    · exact H.remark_bind (H.pure _)
    · exact H.bind (inferReturn H hm t) fun _ => H.pure _
  | none =>
    refine H.remark_bind ?_
    cases hf : manner.function with
    | none => exact H.throw_bind _
    | some f => exact H.bind (H.update (hf ▸ hm)) fun _ => H.pure _

theorem visitPrintStmt : Rel b n n (Analysis.visitPrintStmt (ts.map (Tree.childBy v)))
    (Analysis.visitPrintStmt (ts.map (Tree.childBy v'))) := by
  refine H.remark_bind (H.bind (H.print true) fun _ => ?_)
  rw [Analysis.rule?_childBy, Analysis.rule?_childBy]
  cases ht : ts.find? fun t => t.isRule .expression with
  | some t =>
    exact H.bind (H.discard (h.find ht H.held_none)) fun _ => H.bind (H.print false) fun _ => H.pure _
  | none => exact H.throw_bind _

theorem visitDeclarations {f : Option Reference} (hf : Held b f) (i : Nat) :
    Rel b n n (Analysis.visitDeclarations f i (ts.map (Tree.childBy v)))
      (Analysis.visitDeclarations f i (ts.map (Tree.childBy v'))) := by
  induction ts generalizing i with
  | nil => exact H.pure ()
  | cons t ts ih =>
    exact H.remark_bind (H.bind (H.discard (h t (.head _) b n (.inside none f) hf)) fun _ => ih h.tail (i + 1))

theorem visitBlock {manner : Manner} (hm : Held b manner.function) :
    Rel b n n (Analysis.visitBlock manner (ts.map (Tree.childBy v)))
      (Analysis.visitBlock manner (ts.map (Tree.childBy v'))) := by
  cases manner with
  | alone => exact visitAll H h .nothing
  | inside scope f =>
    refine H.remark_bind ?_
    extract_lets inner inner'
    have hinner : ∀ x, Rel b (n + 1) n (inner x) (inner' x) := by
      intro x
      simp only [inner, inner', Analysis.ofRule_childBy]
      refine H.remark_bind (H.bind (visitDeclarations H (h.filter _) hm 0) fun _ => ?_)
      exact H.remark_bind (H.bind H.exit fun _ => H.pure _)
    cases scope with
    | none => exact H.remark_bind (H.bind (H.enter _) hinner)
    | some name => exact H.remark_bind (H.bind (H.enter _) hinner)

theorem visitFunDecl : Rel b n n (Analysis.visitFunDecl (ts.map (Tree.childBy v)))
    (Analysis.visitFunDecl (ts.map (Tree.childBy v'))) := by
  refine H.remark_bind ?_
  rw [Analysis.rule?_childBy, Analysis.rule?_childBy]
  cases ht : ts.find? fun t => t.isRule .function with
  | some t => exact H.remark_bind (H.bind (H.discard (h.find ht H.held_none)) fun _ => H.pure _)
  | none => exact H.throw_bind _

theorem visitVarDecl : Rel b n n (Analysis.visitVarDecl (ts.map (Tree.childBy v)))
    (Analysis.visitVarDecl (ts.map (Tree.childBy v'))) := by
  unfold Analysis.visitVarDecl
  rw [Analysis.textOf?_childBy, Analysis.textOf?_childBy, Analysis.rule?_childBy, Analysis.rule?_childBy]
  refine H.remark_bind (H.bind (H.required _) fun name => H.remark_bind (H.remark_bind ?_))
  refine H.bind (H.refuseDeclared _ _ name) fun _ => H.remark_bind (H.bind H.currentText fun _ => H.remark_bind ?_)
  refine H.bind (H.declare .variable name) fun _ => H.bind H.currentText fun _ => H.remark_bind ?_
  extract_lets close
  have hclose : ∀ x, Rel b n n (close x) (close x) := by
    intro x
    refine H.bind (H.find? name .variables) fun symbol => H.bind H.currentText fun _ => ?_
    exact H.remark_bind (H.pure _)
  cases ht : ts.find? fun t => t.isRule .expression with
  | some t =>
    refine H.remark_bind (H.bind (H.typeOf (h.find ht H.held_none)) fun t => ?_)
    exact H.bind (H.setType name t) fun _ => H.bind (H.remark _) hclose
  | none => exact H.bind (H.remark _) hclose

theorem visitIfStmt : Rel b n n (Analysis.visitIfStmt (ts.map (Tree.childBy v)))
    (Analysis.visitIfStmt (ts.map (Tree.childBy v'))) := by
  unfold Analysis.visitIfStmt
  simp only [Analysis.ofRule_childBy, Analysis.rule?_childBy, List.getElem?_map]
  have hbodies := h.filter fun t => t.isRule .statement
  refine H.remark_bind ?_
  cases ht : ts.find? fun t => t.isRule .expression with
  | none => exact H.throw_bind _
  | some t =>
    refine H.remark_bind (H.bind (H.typeOf (h.find ht H.held_none)) fun t => H.bind (H.check _) fun _ => ?_)
    cases hyes : (ts.filter fun t => t.isRule .statement)[0]? with
    | none => exact H.throw_bind _
    | some yes =>
      refine H.remark_bind (H.bind (H.discard (hbodies.get hyes H.held_none)) fun _ => ?_)
      cases hno : (ts.filter fun t => t.isRule .statement)[1]? with
      | none => exact H.remark_bind (H.pure _)
      | some no => exact H.remark_bind (H.bind (H.discard (hbodies.get hno H.held_none)) fun _ => H.pure _)

omit h in
theorem declareParam (x : String) : Rel b n n (Analysis.declareParam x) (Analysis.declareParam x) := by
  refine H.remark_bind (H.remark_bind (H.bind (H.refuseDeclared _ _ x) fun _ => H.remark_bind ?_))
  refine H.bind H.currentText fun _ => H.remark_bind (H.bind (H.declare .parameter x) fun param => ?_)
  exact H.bind H.currentText fun _ => H.remark_bind (H.pure _)

omit h in
theorem visitParameters : Rel b n n (Analysis.visitParameters (ts.map (Tree.childBy v)))
    (Analysis.visitParameters (ts.map (Tree.childBy v'))) := by
  have hparams : ∀ xs : List String, Rel b n n (xs.mapM Analysis.declareParam) (xs.mapM Analysis.declareParam) := by
    intro xs
    induction xs with
    | nil => exact H.pure []
    | cons x xs ih =>
      rw [List.mapM_cons]
      exact H.bind (declareParam H x) fun _ => H.bind ih fun _ => H.pure _
  unfold Analysis.visitParameters
  rw [Analysis.textsOf_childBy, Analysis.textsOf_childBy]
  exact H.remark_bind (H.bind (hparams _) fun _ => H.pure _)

theorem visitFunction : Rel b n n (Analysis.visitFunction u (ts.map (Tree.childBy v)))
    (Analysis.visitFunction u' (ts.map (Tree.childBy v'))) := by
  unfold Analysis.visitFunction
  rw [Analysis.textOf?_childBy, Analysis.textOf?_childBy, Analysis.rule?_childBy, Analysis.rule?_childBy,
    Analysis.rule?_childBy, Analysis.rule?_childBy]
  refine H.remark_bind (H.bind (H.required _) fun name => H.remark_bind (H.remark_bind ?_))
  refine H.bind (H.refuseDeclared _ _ name) fun _ => H.remark_bind (H.bind H.currentText fun _ => H.remark_bind ?_)
  -- From here on the new function is known to be found where its reference leads.
  refine H.function fun b f hf => H.remark_bind (H.bind (H.enter _) fun _ => ?_)
  extract_lets leave body body'
  have hleave : ∀ x, Rel b 1 0 (leave x) (leave x) := by
    intro x
    refine H.bind (H.symbolOf f) fun symbol => H.bind (H.paramsShown symbol) fun _ => ?_
    refine H.bind H.currentText fun _ => H.remark_bind (H.remark_bind (H.bind H.exit fun _ => ?_))
    exact H.bind (H.postpone false) fun _ => H.pure _
  have hbody : ∀ x, Rel b 1 0 (body x) (body' x) := by
    intro x
    simp only [body, body']
    cases ht : ts.find? fun t => t.isRule .block with
    | some t => exact H.remark_bind (H.bind (H.discard (h.find ht hf)) hleave)
    | none => exact hleave ()
  cases ht : ts.find? fun t => t.isRule .parameters with
  | some t =>
    refine H.remark_bind (H.bind (h.find ht H.held_none) fun params => ?_)
    refine H.bind (H.changeAt hf fun _ => rfl) fun _ => H.bind (H.postpone true) fun _ => ?_
    refine H.bind (H.update hf) fun _ => H.bind (H.symbolOf f) fun symbol => ?_
    exact H.bind (H.paramsShown symbol) fun _ => H.bind (H.remark _) hbody
  | none => exact H.bind (H.remark _) hbody

end Rules

end Congruence

end CompiScript
