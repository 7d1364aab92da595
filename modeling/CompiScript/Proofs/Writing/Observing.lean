import CompiScript.Proofs.Cascades
import CompiScript.Proofs.Chains.Weighing
import CompiScript.Proofs.Pairing
import CompiScript.Proofs.Replacement

namespace CompiScript

def Rule.isOperation : Rule → Bool
  | logicOr | logicAnd | equality | comparison | term | factor | unary | call | primary => true
  | _ => false

namespace Analysis

def Observes {α : Type} (a : Analysis α) : Prop :=
  ∀ g, ∃ r, Runs g a r g

namespace Observes

variable {α β : Type} {a : Analysis α}

theorem pure (v : α) : Observes (Pure.pure v) :=
  fun _ => ⟨.ok v, .pure v⟩

theorem throw (e : AnalysisError) : Observes (MonadExcept.throw e : Analysis α) :=
  fun _ => ⟨.error e, .throw e⟩

theorem bind {k : α → Analysis β} (ha : Observes a) (hk : ∀ v, Observes (k v)) : Observes (a >>= k) := by
  intro g
  obtain ⟨r, hr⟩ := ha g
  cases r with
  | ok v =>
    obtain ⟨r', hr'⟩ := hk v g
    exact ⟨r', hr.bind_ok hr'⟩
  | error e => exact ⟨.error e, hr.bind_error⟩

theorem remark (text : String) : Observes (Analysis.remark text) :=
  fun _ => ⟨.ok (), .remark text⟩

theorem remark_bind {text : String} {k : Unit → Analysis α} (hk : Observes (k ())) :
    Observes (Analysis.remark text >>= k) :=
  (remark text).bind fun _ => hk

theorem find? (name : String) (category : Category) : Observes (Analysis.find? name category) :=
  fun _ => ⟨_, .find name category⟩

theorem currentText : Observes Analysis.currentText :=
  fun _ => ⟨_, .currentText⟩

theorem required (text : Option String) : Observes (Analysis.required text) := by
  cases text with
  | none => exact .throw _
  | some t => exact .pure t

theorem check (r : Except AnalysisError Unit) : Observes (Analysis.check r) :=
  fun _ => ⟨r, .check r⟩

theorem typeOf {c : Child} (h : Observes (c.visit .alone)) : Observes (Analysis.typeOf c) :=
  h.bind fun v => .pure v.type?

theorem checkArithmetic (cs : List Child) (left : Option Ty) (i : Nat) (right : Option Ty) :
    Observes (Analysis.checkArithmetic cs left i right) := by
  refine (required _).bind fun operator g => ?_
  refine ⟨(Operand.checkArithmetic left right operator g.inPrint g.inReturn).map fun _ => (), .get_bind ?_⟩
  rintro s rfl
  exact .checkRemarking _

theorem standing_eq (h : Observes a) (s : AnalysisState) : (a.runFrom s).2.standing = s.standing := by
  obtain ⟨r, hr⟩ := h s.standing
  obtain ⟨s', hrun, hs'⟩ := hr s rfl
  rw [hrun]
  exact hs'

end Observes

section Children

variable {r : Rule} {cs : List Tree} {c : Child}

theorem exists_node_of_isRule (hc : c ∈ cs.map Tree.child) (hrule : c.tree.isRule r = true) :
    ∃ ts, Tree.node r ts ∈ cs ∧ c = (Tree.node r ts).child := by
  obtain ⟨t, ht, rfl⟩ := List.mem_map.mp hc
  cases t with
  | leaf x => cases hrule
  | node q ts =>
    obtain rfl := of_decide_eq_true hrule
    exact ⟨ts, ht, rfl⟩

theorem mem_of_rule? (h : rule? r (cs.map Tree.child) = some c) :
    ∃ ts, Tree.node r ts ∈ cs ∧ c = (Tree.node r ts).child :=
  exists_node_of_isRule (List.mem_of_find?_eq_some h) (List.find?_some (p := fun c : Child => c.tree.isRule r) h)

theorem mem_of_ofRule (h : c ∈ ofRule r (cs.map Tree.child)) :
    ∃ ts, Tree.node r ts ∈ cs ∧ c = (Tree.node r ts).child := by
  obtain ⟨hc, hrule⟩ := List.mem_filter.mp h
  exact exists_node_of_isRule hc hrule

theorem part_visit {P : Analysis Value → Prop} {text : String} (hnone : P (pure .nothing))
    (hsome : ∀ ts, Tree.node r ts ∈ cs → P (do remark text; (Tree.node r ts).visit .alone)) :
    P (match rule? r (cs.map Tree.child) with
      | some c => do remark text; c.visit .alone
      | none => return .nothing) := by
  split
  · next c hc =>
    obtain ⟨ts, hts, rfl⟩ := mem_of_rule? hc
    exact hsome ts hts
  · exact hnone

end Children

section Levels

variable {level : Level} {cs : List Tree}

theorem visitOperands_observes {seen : Nat → Option Ty → Analysis Unit} {operands : List Child}
    (hoperands : ∀ c ∈ operands, Observes (c.visit .alone)) (hseen : ∀ i t, Observes (seen i t)) (i : Nat) :
    Observes (visitOperands level seen i operands) := by
  induction operands generalizing i with
  | nil => exact .pure ()
  | cons c rest ih =>
    obtain ⟨hc, hrest⟩ := List.forall_mem_cons.mp hoperands
    exact .remark_bind ((Observes.typeOf hc).bind fun right => (hseen i right).bind fun _ => ih hrest (i + 1))

theorem visitLevel_observes {first : Option Ty → Analysis Unit} {check : Option Ty → Nat → Option Ty → Analysis Unit}
    {result : Ty} (hoperand : ∀ ts manner, Observes ((Tree.node level.operand ts).visit manner))
    (hfirst : ∀ t, Observes (first t)) (hcheck : ∀ left i right, Observes (check left i right)) :
    Observes (visitLevel level (cs.map Tree.child) first check result) := by
  have hoperands : ∀ c ∈ ofRule level.operand (cs.map Tree.child), Observes (c.visit .alone) := by
    intro c hc
    obtain ⟨ts, -, rfl⟩ := mem_of_ofRule hc
    exact hoperand ts .alone
  refine .remark_bind ?_
  -- From here on it does not matter where the operands stand.
  generalize ofRule level.operand (cs.map Tree.child) = operands at hoperands
  have hrest : ∀ left, Observes (visitOperands level (check left) 1 operands.tail) := fun left =>
    visitOperands_observes (fun c hc => hoperands c (List.mem_of_mem_tail hc)) (hcheck left) 1
  have hseveral : Observes (firstOperand level operands) → Observes (do
      let left ← firstOperand level operands
      first left
      visitOperands level (check left) 1 operands.tail
      return Value.type (some result)) :=
    fun hleft => hleft.bind fun left => (hfirst left).bind fun _ => (hrest left).bind fun _ => .pure _
  match operands with
  | [] => exact hseveral (.remark_bind (.throw _))
  | [c] => exact .remark_bind (hoperands c List.mem_cons_self)
  | c :: d :: rest => exact hseveral (.typeOf (hoperands c List.mem_cons_self))

end Levels

section Operations

variable (cs : List Tree) (manner : Manner)

theorem primary_observes : Observes ((Tree.node .primary cs).visit manner) := by
  rw [Tree.visit_node]
  refine .remark_bind ?_
  split
  · exact .pure _
  split
  · exact .pure _
  dsimp only
  split
  · exact .pure _
  split
  · exact .pure _
  split
  · exact .pure _
  · refine .remark_bind ((Observes.find? _ _).bind fun found => ?_)
    cases found with
    | none => exact .throw _
    | some symbol => exact .pure _

theorem call_observes : Observes ((Tree.node .call cs).visit manner) := by
  rw [Tree.visit_node]
  exact .remark_bind (part_visit (.pure _) fun ts _ => .remark_bind (primary_observes ts .alone))

theorem unary_observes : Observes ((Tree.node .unary cs).visit manner) := by
  rw [Tree.visit_node]
  exact .remark_bind (part_visit (.pure _) fun ts _ => .remark_bind (call_observes ts .alone))

theorem factor_observes : Observes ((Tree.node .factor cs).visit manner) := by
  rw [Tree.visit_node]
  exact visitLevel_observes unary_observes (fun _ => .pure ()) (.checkArithmetic _)

theorem term_observes : Observes ((Tree.node .term cs).visit manner) := by
  rw [Tree.visit_node]
  exact visitLevel_observes factor_observes (fun _ => .pure ()) (.checkArithmetic _)

theorem comparison_observes : Observes ((Tree.node .comparison cs).visit manner) := by
  rw [Tree.visit_node]
  exact visitLevel_observes term_observes (fun _ => .remark _)
    (fun left i right => .remark_bind (.checkArithmetic _ left i right))

theorem equality_observes : Observes ((Tree.node .equality cs).visit manner) := by
  rw [Tree.visit_node]
  exact visitLevel_observes comparison_observes (fun _ => .pure ())
    (fun _ _ _ => (Observes.required _).bind fun _ => .check _)

theorem logicAnd_observes : Observes ((Tree.node .logicAnd cs).visit manner) := by
  rw [Tree.visit_node]
  exact visitLevel_observes equality_observes (fun _ => .pure ()) (fun _ _ _ => .check _)

theorem logicOr_observes : Observes ((Tree.node .logicOr cs).visit manner) := by
  rw [Tree.visit_node]
  exact visitLevel_observes logicAnd_observes (fun _ => .pure ()) (fun _ _ _ => .check _)

theorem operation_observes {r : Rule} (hr : r.isOperation = true) : Observes ((Tree.node r cs).visit manner) := by
  cases r with
  | logicOr => exact logicOr_observes cs manner
  | logicAnd => exact logicAnd_observes cs manner
  | equality => exact equality_observes cs manner
  | comparison => exact comparison_observes cs manner
  | term => exact term_observes cs manner
  | factor => exact factor_observes cs manner
  | unary => exact unary_observes cs manner
  | call => exact call_observes cs manner
  | primary => exact primary_observes cs manner
  | _ => cases hr

end Operations

end Analysis

end CompiScript
