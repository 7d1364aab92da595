import CompiScript.Proofs.Congruence.Statements

namespace CompiScript

namespace Congruence

variable {B : Type} {Rel : B → Nat → Nat → {α : Type} → Analysis α → Analysis α → Prop}
  {Held : B → Option Reference → Prop} {u u' : Reference → Analysis Unit} {b : B} {n m : Nat}
  {v v' : Tree → Visit} {ts : List Tree}

section Expressions

variable (H : Congruence Rel Held u u') (h : Parts Rel Held v v' ts)

include H

theorem assignTo (x : String) (given : Option Ty) :
    Rel b n n (Analysis.assignTo x given) (Analysis.assignTo x given) := by
  refine H.bind (H.find? x .variables) fun symbol => ?_
  extract_lets type settled
  have hsettled : ∀ y, Rel b n n (settled y) (settled y) :=
    fun _ => H.bind (H.find? x .variables) fun _ => H.remark _
  clear_value type
  cases type with
  | none => exact H.bind (H.setType x given) fun _ => H.bind (H.remark _) hsettled
  | some t =>
    dsimp only
    split
    · exact H.throw_bind _
    · exact hsettled ()

theorem operatorText (i : Nat) : Rel b n n (Analysis.operatorText i (ts.map (Tree.childBy v)))
    (Analysis.operatorText i (ts.map (Tree.childBy v'))) := by
  unfold Analysis.operatorText
  rw [List.getElem?_map, List.getElem?_map, Option.map_map, Option.map_map]
  exact H.required _

theorem checkArithmetic (left : Option Ty) (i : Nat) (right : Option Ty) :
    Rel b n n (Analysis.checkArithmetic (ts.map (Tree.childBy v)) left i right)
      (Analysis.checkArithmetic (ts.map (Tree.childBy v')) left i right) :=
  H.bind (operatorText H i) fun _ => H.get_bind (fun _ _ => rfl) fun _ => H.checkRemarking _

theorem visitPrimary : Rel b n n (Analysis.visitPrimary (ts.map (Tree.childBy v)))
    (Analysis.visitPrimary (ts.map (Tree.childBy v'))) := by
  -- No part is visited, so the two are the same.
  have hsame : Analysis.visitPrimary (ts.map (Tree.childBy v')) = Analysis.visitPrimary (ts.map (Tree.childBy v)) := by
    simp only [Analysis.visitPrimary, Analysis.textOf?_childBy, List.map_map]
    rfl
  rw [hsame]
  refine H.remark_bind ?_
  extract_lets text
  split
  · exact H.pure _
  split
  · exact H.pure _
  split
  · exact H.pure _
  split
  · exact H.pure _
  split
  · exact H.pure _
  · next name _ =>
    refine H.remark_bind (H.bind (H.find? name .variables) fun symbol => ?_)
    cases symbol with
    | none => exact H.throw _
    | some symbol => exact H.pure _

include h

theorem visitAssignment : Rel b n n (Analysis.visitAssignment (ts.map (Tree.childBy v)))
    (Analysis.visitAssignment (ts.map (Tree.childBy v'))) := by
  unfold Analysis.visitAssignment
  rw [Analysis.textOf?_childBy, Analysis.textOf?_childBy, Analysis.rule?_childBy, Analysis.rule?_childBy,
    Analysis.rule?_childBy, Analysis.rule?_childBy]
  refine H.remark_bind ?_
  cases ((ts.filter fun t => t.isKind .identifier).map Tree.text).head? with
  | some name =>
    refine H.remark_bind (H.bind (H.find? name .variables) fun symbol => ?_)
    extract_lets done value value'
    have hvalue : ∀ x, Rel b n n (value x) (value' x) := by
      intro x
      refine H.bind H.currentText fun _ => H.remark_bind ?_
      cases ht : ts.find? fun t => t.isRule .assignment with
      | none => exact H.throw_bind _
      | some t =>
        refine H.bind (H.typeOf (h.find ht H.held_none)) fun t => ?_
        exact H.bind (assignTo H name t) fun _ => H.pure _
    split
    · exact H.bind H.currentText fun _ => H.throw_bind _
    · exact hvalue ()
  | none =>
    cases ht : ts.find? fun t => t.isRule .logicOr with
    | some t => exact H.remark_bind (h.find ht H.held_none)
    | none => exact H.pure _

theorem visitOperands (level : Analysis.Level) {seen seen' : Nat → Option Ty → Analysis Unit}
    (hseen : ∀ i t, Rel b n n (seen i t) (seen' i t)) (i : Nat) :
    Rel b n n (Analysis.visitOperands level seen i (ts.map (Tree.childBy v)))
      (Analysis.visitOperands level seen' i (ts.map (Tree.childBy v'))) := by
  induction ts generalizing i with
  | nil => exact H.pure ()
  | cons t ts ih =>
    refine H.remark_bind (H.bind (H.typeOf (h t (.head _) b n .alone H.held_none)) fun right => ?_)
    exact H.bind (hseen i right) fun _ => ih h.tail (i + 1)

theorem visitLevel (level : Analysis.Level) {first : Option Ty → Analysis Unit}
    {check check' : Option Ty → Nat → Option Ty → Analysis Unit} (hfirst : ∀ t, Rel b n n (first t) (first t))
    (hcheck : ∀ left i right, Rel b n n (check left i right) (check' left i right)) (result : Ty) :
    Rel b n n (Analysis.visitLevel level (ts.map (Tree.childBy v)) first check result)
      (Analysis.visitLevel level (ts.map (Tree.childBy v')) first check' result) := by
  unfold Analysis.visitLevel
  rw [Analysis.ofRule_childBy, Analysis.ofRule_childBy]
  refine H.remark_bind ?_
  have hoperands := h.filter fun t => t.isRule level.operand
  generalize ts.filter (fun t => t.isRule level.operand) = operands at hoperands
  cases operands with
  | nil =>
    refine H.bind (H.remark_bind (H.throw _)) fun left => H.bind (hfirst left) fun _ => ?_
    exact H.bind (H.pure ()) fun _ => H.pure _
  | cons t rest =>
    have hfirst' := hoperands t (.head _) b n .alone H.held_none
    cases rest with
    | nil => exact H.remark_bind hfirst'
    | cons t' rest =>
      refine H.bind (H.typeOf hfirst') fun left => H.bind (hfirst left) fun _ => ?_
      exact H.bind (visitOperands H hoperands.tail level (hcheck left) 1) fun _ => H.pure _

end Expressions

theorem visitRule (H : Congruence Rel Held u u') (h : Parts Rel Held v v' ts) (r : Rule) {manner : Manner}
    (hm : Held b manner.function) :
    Rel b n n (Analysis.visitRuleWith u r manner (ts.map (Tree.childBy v)))
      (Analysis.visitRuleWith u' r manner (ts.map (Tree.childBy v'))) := by
  cases r with
  | program => exact H.remark_bind (visitAll H h .nothing)
  | declaration => exact visitDeclaration H h hm
  | funDecl => exact visitFunDecl H h
  | varDecl => exact visitVarDecl H h
  | statement => exact H.remark_bind (visitForms H h hm Analysis.statementForms)
  | exprStmt => exact H.remark_bind (passOn H h _ _)
  | forStmt => exact visitForStmt H h
  | ifStmt => exact visitIfStmt H h
  | printStmt => exact visitPrintStmt H h
  | returnStmt => exact visitReturnStmt H h hm
  | whileStmt => exact visitWhileStmt H h
  | block => exact visitBlock H h hm
  | expression => exact H.remark_bind (passOn H h _ _)
  | assignment => exact visitAssignment H h
  | logicOr => exact visitLevel H h _ (fun _ => H.pure ()) (fun _ _ _ => H.check _) _
  | logicAnd => exact visitLevel H h _ (fun _ => H.pure ()) (fun _ _ _ => H.check _) _
  | equality =>
    refine visitLevel H h _ (fun _ => H.pure ()) (fun _ i _ => ?_) _
    exact H.bind (operatorText H i) fun _ => H.check _
  | comparison =>
    refine visitLevel H h _ (fun _ => H.remark _) (fun _ _ _ => ?_) _
    exact H.remark_bind (checkArithmetic H _ _ _)
  | term => exact visitLevel H h _ (fun _ => H.pure ()) (checkArithmetic H) _
  | factor => exact visitLevel H h _ (fun _ => H.pure ()) (checkArithmetic H) _
  | unary => exact H.remark_bind (passOn H h _ _)
  | call => exact H.remark_bind (passOn H h _ _)
  | primary => exact visitPrimary H
  | function => exact visitFunction H h
  | parameters => exact visitParameters H
  | classDecl | funAnon | array | instantiation | arguments => exact visitAll H h .nothing

mutual

theorem visit (H : Congruence Rel Held u u') : ∀ (t : Tree) (b : B) (n : Nat) (manner : Manner),
    Held b manner.function → Rel b n n (t.visitWith u manner) (t.visitWith u' manner)
  | .leaf _, _, _, _, _ => H.pure _
  | .node r cs, b, n, manner, hm => by
    rw [Tree.visitWith, Tree.visitWith, Tree.visitEachWith_eq_map, Tree.visitEachWith_eq_map]
    exact visitRule H (visitParts H cs) r hm

theorem visitParts (H : Congruence Rel Held u u') : ∀ ts : List Tree,
    Parts Rel Held (Tree.visitWith u) (Tree.visitWith u') ts
  | [] => fun _ ht => by cases ht
  | t :: ts => fun s hs => by
    rcases List.mem_cons.mp hs with heq | hs
    · rw [heq]
      exact visit H t
    · exact visitParts H ts s hs

end

end Congruence

end CompiScript
