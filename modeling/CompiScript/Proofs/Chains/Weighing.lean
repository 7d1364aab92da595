import CompiScript.Proofs.Chains.Levels

namespace CompiScript.Syntax

section Levels

variable {s : AnalysisState}

def Level.check (l : Level) (g : Standing) : Option Ty → Kind → Option Ty → Except AnalysisError Unit :=
  match l with
  | .logicOr => checkLogical "or"
  | .logicAnd => checkLogical "and"
  | .equality => checkEquality
  | .comparison | .term | .factor => checkArithmetic g

namespace Level

/-- Where operands are not checked: in a function with parameters, and behind `+` in a `print`. -/
def Waives (l : Level) (g : Standing) (k : Kind) : Prop :=
  l ∈ [comparison, term, factor] ∧ (g.inReturn = true ∨ g.inPrint = true ∧ k = .plus)

def Fits (l : Level) (g : Standing) (left : Option Ty) (k : Kind) (right : Option Ty) : Prop :=
  l.Waives g k ∨ ∃ u ∈ l.accepted, left = some u ∧ right = some u

instance (l : Level) (g : Standing) (left : Option Ty) (k : Kind) (right : Option Ty) :
    Decidable (l.Fits g left k right) :=
  inferInstanceAs (Decidable (_ ∧ (_ ∨ _ ∧ _) ∨ ∃ u ∈ l.accepted, left = some u ∧ right = some u))

def refusal (l : Level) (left : Option Ty) (k : Kind) (right : Option Ty) : AnalysisError :=
  match l with
  | logicOr => .needsBooleans "or" left right
  | logicAnd => .needsBooleans "and" left right
  | equality =>
    if left = right then .needsNumbersOrStrings (word k) left right else .notComparable (word k) left right
  | comparison | term | factor => .needsNumbers (word k) left right

section Check

variable {l : Level} {g : Standing} {left right : Option Ty} {k : Kind}

theorem fits_iff (hl : l ∉ [comparison, term, factor]) :
    l.Fits g left k right ↔ ∃ u ∈ l.accepted, left = some u ∧ right = some u :=
  or_iff_right fun h => hl h.1

theorem fits_iff_of_plain (hprint : g.inPrint = false) (hreturn : g.inReturn = false) :
    l.Fits g left k right ↔ ∃ u ∈ l.accepted, left = some u ∧ right = some u := by
  have hwaives : ¬l.Waives g k := by
    simp [Waives, hprint, hreturn]
  exact or_iff_right hwaives

theorem fits_arithmetic (hl : l ∈ [comparison, term, factor]) :
    l.Fits g left k right ↔ (word k = "+" ∧ g.inPrint = true) ∨ g.inReturn = true ∨
      (left = some .string ∧ right = some .string) ∨ (left = some .num ∧ right = some .num) := by
  have haccepted : ∀ l ∈ [comparison, term, factor], l.accepted = [.num, .string] := by decide
  simp only [Fits, Waives, hl, true_and, haccepted l hl, word_eq_plus, List.mem_cons, List.not_mem_nil, or_false,
    exists_eq_or_imp, exists_eq_left]
  grind

theorem checkArithmetic_eq (hl : l ∈ [comparison, term, factor]) :
    checkArithmetic g left k right =
      if l.Fits g left k right then .ok () else .error (.needsNumbers (word k) left right) := by
  simp only [fits_arithmetic hl, checkArithmetic, Operand.checkArithmetic]
  grind [Except.map]

theorem checkEquality_eq (hright : Ty.IsProper right) :
    checkEquality left k right =
      if equality.Fits g left k right then .ok () else .error (equality.refusal left k right) := by
  have hfits : equality.Fits g left k right ↔ left = right ∧ (left = some .num ∨ left = some .string) := by
    simp only [fits_iff (l := equality) (by decide), accepted, List.mem_cons, List.not_mem_nil, or_false,
      exists_eq_or_imp, exists_eq_left]
    grind
  simp only [hfits, refusal, checkEquality, Operand.checkEquality, Bool.not_eq_true', ← Bool.not_eq_true,
    passesFor_iff hright]
  grind

theorem checkLogical_eq (hl : l ∈ [logicOr, logicAnd]) (operator : String) :
    checkLogical operator left k right =
      if l.Fits g left k right then .ok () else .error (.needsBooleans operator left right) := by
  have hlevel : ∀ l ∈ [logicOr, logicAnd], l ∉ [comparison, term, factor] ∧ l.accepted = [.boolean] := by decide
  obtain ⟨hother, haccepted⟩ := hlevel l hl
  simp only [fits_iff hother, haccepted, List.mem_singleton, exists_eq_left, checkLogical, Operand.checkLogical]

theorem check_eq (hright : Ty.IsProper right) :
    l.check g left k right = if l.Fits g left k right then .ok () else .error (l.refusal left k right) := by
  cases l with
  | logicOr => exact checkLogical_eq (by decide) "or"
  | logicAnd => exact checkLogical_eq (by decide) "and"
  | equality => exact checkEquality_eq hright
  | comparison | term | factor => exact checkArithmetic_eq (by decide)

theorem check_eq_ok (hright : Ty.IsProper right) : l.check g left k right = .ok () ↔ l.Fits g left k right := by
  rw [check_eq hright]
  split
  · next h => exact ⟨fun _ => h, fun _ => rfl⟩
  · next h => exact ⟨nofun, fun hfits => absurd hfits h⟩

end Check

end Level

structure Level.Operands (l : Level) (g : Standing) (α : Type) where
  tree : α → Tree
  type : α → Except AnalysisError (Option Ty)
  isRule : ∀ a, (tree a).isRule l.operand = true
  visit_run : ∀ a, Runs g ((tree a).visit .alone) ((type a).map .type) g
  chain_run : ∀ e : Chain α, Runs g ((e.tree l.rule tree).visit .alone)
    ((e.type type (l.check g) l.result).map .type) g
  isProper : (∀ x symbol, g.scopes.find? x (some .variables) = some symbol → Ty.IsProper symbol.type?) →
    ∀ a t, type a = .ok t → Ty.IsProper t

namespace Level.Operands

variable (g : Standing)

def factor : Level.factor.Operands g Unary :=
  ⟨Unary.tree, Unary.type g, fun u => by cases u <;> rfl, fun u => u.visit_run g .alone,
    fun e => Factor.visit_run g e .alone, fun hg _ _ => Unary.type_isProper hg⟩

def term : Level.term.Operands g Factor :=
  ⟨Factor.tree, Factor.type g, fun _ => rfl, fun e => Factor.visit_run g e .alone, fun e => Term.visit_run g e .alone,
    fun hg => Chain.type_isProper trivial ((factor g).isProper hg)⟩

def comparison : Level.comparison.Operands g Term :=
  ⟨Term.tree, Term.type g, fun _ => rfl, fun e => Term.visit_run g e .alone, fun e => Comparison.visit_run g e .alone,
    fun hg => Chain.type_isProper trivial ((term g).isProper hg)⟩

def equality : Level.equality.Operands g Comparison :=
  ⟨Comparison.tree, Comparison.type g, fun _ => rfl, fun e => Comparison.visit_run g e .alone,
    fun e => Equality.visit_run g e .alone, fun hg => Chain.type_isProper trivial ((comparison g).isProper hg)⟩

def logicAnd : Level.logicAnd.Operands g Equality :=
  ⟨Equality.tree, Equality.type g, fun _ => rfl, fun e => Equality.visit_run g e .alone,
    fun e => LogicAnd.visit_run g e .alone, fun hg => Chain.type_isProper trivial ((equality g).isProper hg)⟩

def logicOr : Level.logicOr.Operands g LogicAnd :=
  ⟨LogicAnd.tree, LogicAnd.type g, fun _ => rfl, fun e => LogicAnd.visit_run g e .alone,
    fun e => LogicOr.visit_run g e .alone, fun hg => Chain.type_isProper trivial ((logicAnd g).isProper hg)⟩

end Level.Operands

theorem exists_operands (l : Level) (g : Standing) {c : Chain Tree} (hc : Spells (.rule l.rule) [c.tree l.rule id]) :
    ∃ (α : Type) (o : l.Operands g α) (e : Chain α), e.tree l.rule o.tree = c.tree l.rule id := by
  obtain ⟨cs, hcs, htree⟩ := spells_rule.mp hc
  have hnode : .node l.rule cs = c.tree l.rule id := (List.cons.inj htree).1.symm
  rw [← hnode]
  cases l with
  | logicOr => exact ⟨_, .logicOr g, exists_logicOr cs hcs⟩
  | logicAnd => exact ⟨_, .logicAnd g, exists_logicAnd cs hcs⟩
  | equality => exact ⟨_, .equality g, exists_equality cs hcs⟩
  | comparison => exact ⟨_, .comparison g, exists_comparison cs hcs⟩
  | term => exact ⟨_, .term g, exists_term cs hcs⟩
  | factor => exact ⟨_, .factor g, exists_factor cs hcs⟩

structure Weighing (s : AnalysisState) (l : Level) (c : Chain Tree) (α : Type) where
  tree : α → Tree
  operand : α → Except AnalysisError (Option Ty)
  check : Option Ty → Kind → Option Ty → Except AnalysisError Unit
  chain : Chain α
  map_chain : chain.map tree = c
  hasType_tree : ∀ a t, HasType s (tree a) t ↔ operand a = .ok t
  visit_run : Runs s.standing ((c.tree l.rule id).visit .alone) ((chain.type operand check l.result).map .type)
    s.standing
  check_eq_ok : ∀ left k a right, operand a = .ok right →
    (check left k right = .ok () ↔ ∃ u ∈ l.accepted, left = some u ∧ right = some u)

theorem exists_weighing (hs : Plain s) (l : Level) {c : Chain Tree} (hc : Spells (.rule l.rule) [c.tree l.rule id]) :
    ∃ α, Nonempty (Weighing s l c α) := by
  obtain ⟨α, o, e, he⟩ := exists_operands l s.standing hc
  refine ⟨α, ⟨o.tree, o.type, l.check s.standing, e, Chain.map_eq_of_tree_eq he, fun a => hasType_iff (o.visit_run a),
    he ▸ o.chain_run e, ?_⟩⟩
  intro left k a right hright
  exact (Level.check_eq_ok (o.isProper hs.types a right hright)).trans
    (Level.fits_iff_of_plain hs.inPrint hs.inReturn)

theorem hasType_chain (hs : Plain s) (l : Level) {c : Chain Tree} (hc : Spells (.rule l.rule) [c.tree l.rule id])
    (hrest : c.rest ≠ []) (t : Option Ty) :
    HasType s (c.tree l.rule id) t ↔ t = some l.result ∧ ∃ u ∈ l.accepted, Uniform s c u := by
  obtain ⟨α, ⟨w⟩⟩ := exists_weighing hs l hc
  have hne : w.chain.rest ≠ [] := by
    intro h
    apply hrest
    rw [← w.map_chain, Chain.map, h]
    rfl
  rw [hasType_iff w.visit_run, Chain.type_eq_ok w.check_eq_ok hne]
  simp only [Uniform, ← w.map_chain, Chain.map, List.forall_mem_map, w.hasType_tree]

theorem eq_type_of_visit (hs : Plain s) (l : Level) {c : Chain Tree} (hc : Spells (.rule l.rule) [c.tree l.rule id])
    {v : Value} {s' : AnalysisState} (h : ((c.tree l.rule id).visit .alone).runFrom s = (.ok v, s')) :
    ∃ t, v = .type t := by
  obtain ⟨α, ⟨w⟩⟩ := exists_weighing hs l hc
  obtain ⟨s'', hrun, -⟩ := w.visit_run s rfl
  have hv := (Prod.mk.inj (h.symm.trans hrun)).1
  cases htype : w.chain.type w.operand w.check l.result with
  | error e => rw [htype] at hv; cases hv
  | ok t => rw [htype] at hv; exact ⟨t, Except.ok.inj hv⟩

theorem operators_of_spells {operators : Phrase} {operand : Rule} {ks : List Kind}
    (ho : ∀ ts, Spells operators ts → ∃ k ∈ ks, ts = [sign k]) {c : Chain Tree}
    (h : Spells (.chain operators operand) (c.first :: Chain.restTrees id c.rest)) : ∀ p ∈ c.rest, p.1 ∈ ks := by
  have hrest : ∀ ts, Spells (.repeated [operators, .rule operand]) ts →
      ∀ rest, Chain.restTrees id rest = ts → ∀ p ∈ rest, p.1 ∈ ks := by
    intro ts ht
    refine ht.many_induction (P := fun ts => ∀ rest, Chain.restTrees id rest = ts → ∀ p ∈ rest, p.1 ∈ ks) ?_ ?_
    · intro rest hrest
      cases rest with
      | nil => exact nofun
      | cons q rest => cases hrest
    · intro xs ys hx ih rest hrest
      obtain ⟨us, hu, vs, hv, rfl⟩ := spells_seq.mp hx
      obtain ⟨k, hk, rfl⟩ := ho us hu
      obtain ⟨ds, -, rfl⟩ := spells_rule.mp hv
      cases rest with
      | nil => cases hrest
      | cons q rest =>
        obtain ⟨hsign, htail⟩ := List.cons.inj hrest
        obtain ⟨-, htail⟩ := List.cons.inj htail
        have hkind : q.1 = k := congrArg Lexeme.kind (Tree.leaf.inj hsign)
        exact List.forall_mem_cons.mpr ⟨hkind ▸ hk, ih rest htail⟩
  simp only [Phrase.chain, Phrase.row] at h
  obtain ⟨xs, hx, ys, hy, hxs⟩ := spells_seq.mp h
  obtain ⟨ds, -, rfl⟩ := spells_rule.mp hx
  exact hrest ys hy c.rest (List.cons.inj hxs).2

theorem mem_operators (l : Level) {c : Chain Tree} (hc : Spells (.rule l.rule) [c.tree l.rule id]) :
    ∀ p ∈ c.rest, p.1 ∈ l.operators := by
  have hsigns : ∀ ks : List Kind, (∀ k ∈ ks, k.spelling?.isSome = true) → ∀ ts, Spells (.oneOf ks) ts →
      ∃ k ∈ ks, ts = [sign k] := by
    intro ks hks ts h
    obtain ⟨x, hx, hkind, rfl⟩ := spells_oneOf.mp h
    exact ⟨x.kind, hkind, by rw [sign, ← hx.eq_literal rfl (hks _ hkind)]⟩
  obtain ⟨cs, hcs, htree⟩ := spells_rule.mp hc
  obtain rfl : c.first :: Chain.restTrees id c.rest = cs := (Tree.node.inj (List.cons.inj htree).1).2
  cases l with
  | logicOr => exact operators_of_spells (fun ts h => ⟨_, List.mem_singleton_self _, spells_sign rfl h⟩) hcs
  | logicAnd => exact operators_of_spells (fun ts h => ⟨_, List.mem_singleton_self _, spells_sign rfl h⟩) hcs
  | equality => exact operators_of_spells (hsigns _ (by decide)) hcs
  | comparison => exact operators_of_spells (hsigns _ (by decide)) hcs
  | term => exact operators_of_spells (hsigns _ (by decide)) hcs
  | factor => exact operators_of_spells (hsigns _ (by decide)) hcs

end Levels

theorem plain_of_analyse {p : Program} {v : Value} {s : AnalysisState}
    (h : AnalysisState.start.analyse p.tree = (.ok v, s)) : Plain s := by
  obtain ⟨g, hexecute, hstanding⟩ := execute_of_analyse h
  obtain ⟨hprint, hreturn⟩ := p.execute_flags hexecute rfl rfl
  have hscopes : s.scopes = g.scopes := congrArg Standing.scopes hstanding
  refine ⟨(congrArg Standing.inPrint hstanding).trans hprint, (congrArg Standing.inReturn hstanding).trans hreturn, ?_⟩
  intro x symbol hfound
  rw [hscopes] at hfound
  obtain ⟨n, hn⟩ := Scopes.home?_of_find? (Option.isSome_iff_exists.mpr ⟨symbol, hfound⟩)
  have htype := Scopes.typeAt_home hn
  rw [hfound] at htype
  exact (execute_proper hexecute).types n x _ htype

end CompiScript.Syntax
