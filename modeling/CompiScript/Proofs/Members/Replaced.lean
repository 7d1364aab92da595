import CompiScript.Proofs.Blindness.Outcome
import CompiScript.Proofs.Identifiers
import CompiScript.Proofs.Missing.Wanted

namespace CompiScript

open Syntax Step

mutual

/-- One member `x` behind a point, in a target or behind `super`, is replaced by `z`. -/
inductive Tree.MemberReplaced (x : String) (z : Name) : Tree → Tree → Prop
  | target (parts : List Tree) (value : Tree) :
      MemberReplaced x z
        (.node .assignment [.node .call parts, sign .dot, .leaf ⟨.identifier, x⟩, sign .equal, value])
        (.node .assignment [.node .call parts, sign .dot, z.tree, sign .equal, value])
  | inherited :
      MemberReplaced x z (.node .primary [sign .superWord, sign .dot, .leaf ⟨.identifier, x⟩])
        (.node .primary [sign .superWord, sign .dot, z.tree])
  | inside {r : Rule} {cs cs' : List Tree} (h : MemberReplacedIn x z cs cs') :
      MemberReplaced x z (.node r cs) (.node r cs')

inductive Tree.MemberReplacedIn (x : String) (z : Name) : List Tree → List Tree → Prop
  | here {t t' : Tree} {ts : List Tree} (h : MemberReplaced x z t t') : MemberReplacedIn x z (t :: ts) (t' :: ts)
  | there {t : Tree} {ts ts' : List Tree} (h : MemberReplacedIn x z ts ts') : MemberReplacedIn x z (t :: ts) (t :: ts')

end

open CompiScript.Tree

section Misses

def Misses {β : Type} (x z : String) (k : Standing) (r r' : Except AnalysisError β) : Prop :=
  ∃ err, r' = .error err ∧ (r = .error err ∨ err.missing? = some z ∧
    (k.scopes.find? x (some .variables) = none → ∃ old, r = .error old ∧ old.missing? = some x))

variable {α β : Type} {x z : String} {k : Standing} {r r' : Except AnalysisError α}

theorem Misses.bind (h : Misses x z k r r') (f f' : α → Except AnalysisError β) :
    Misses x z k (r >>= f) (r' >>= f') := by
  obtain ⟨err, rfl, hsame | ⟨hz, hx⟩⟩ := h
  · exact ⟨err, rfl, .inl (by rw [hsame]; rfl)⟩
  · refine ⟨err, rfl, .inr ⟨hz, fun hnone => ?_⟩⟩
    obtain ⟨old, rfl, hold⟩ := hx hnone
    exact ⟨old, rfl, hold⟩

theorem Misses.bind_right {f f' : α → Except AnalysisError β} (h : ∀ a, Misses x z k (f a) (f' a)) :
    Misses x z k (r >>= f) (r >>= f') := by
  cases r with
  | ok a => exact h a
  | error err => exact ⟨err, rfl, .inl rfl⟩

theorem misses_nameType {a b : Name} (hb : k.scopes.find? b.text (some .variables) = none) :
    Misses a.text b.text k (nameType k a) (nameType k b) := by
  refine ⟨.undeclared b.text, by rw [nameType, hb], .inr ⟨rfl, fun hnone => ?_⟩⟩
  exact ⟨.undeclared a.text, by rw [nameType, hnone], rfl⟩

theorem misses_aim {g : Stage} (hz : g.scopes.find? z (some .variables) = none) :
    Misses x z g.toStanding ((aim x).run g) ((aim z).run g) := by
  refine ⟨_, by rw [run, hz]; rfl, .inr ⟨rfl, fun hnone => ?_⟩⟩
  exact ⟨_, by rw [run, hnone]; rfl, rfl⟩

end Misses

def Renames {α : Type} (x : String) (z : Name) (type : Standing → α → Except AnalysisError (Option Ty)) (a a' : α) :
    Prop :=
  ∀ k : Standing, k.scopes.find? z.text (some .variables) = none → Misses x z.text k (type k a) (type k a')

section Replaced

variable {x : String} {z : Name}

theorem Tree.MemberReplaced.exists_node {r : Rule} {cs : List Tree} {t' : Tree} (h : MemberReplaced x z (.node r cs) t')
    (hr : r ≠ .assignment ∧ r ≠ .primary) : ∃ cs', t' = .node r cs' ∧ MemberReplacedIn x z cs cs' := by
  cases h with
  | target parts value => exact absurd rfl hr.1
  | inherited => exact absurd rfl hr.2
  | inside h => exact ⟨_, rfl, h⟩

theorem Tree.MemberReplacedIn.of_leaf {a : Lexeme} {ts cs' : List Tree} (h : MemberReplacedIn x z (.leaf a :: ts) cs') :
    ∃ ts', cs' = .leaf a :: ts' ∧ MemberReplacedIn x z ts ts' := by
  rcases h with h | h
  · cases h
  · exact ⟨_, rfl, h⟩

theorem Tree.MemberReplacedIn.only {t : Tree} {cs' : List Tree} (h : MemberReplacedIn x z [t] cs') :
    ∃ t', cs' = [t'] ∧ MemberReplaced x z t t' := by
  rcases h with h | h
  · exact ⟨_, rfl, h⟩
  · cases h

theorem Tree.MemberReplacedIn.append {ts us cs' : List Tree} (h : MemberReplacedIn x z (ts ++ us) cs') :
    (∃ ts', cs' = ts' ++ us ∧ MemberReplacedIn x z ts ts') ∨ ∃ us', cs' = ts ++ us' ∧ MemberReplacedIn x z us us' := by
  induction ts generalizing cs' with
  | nil => exact .inr ⟨cs', rfl, h⟩
  | cons t ts ih =>
    rcases h with ht | hrest
    · exact .inl ⟨_ :: ts, rfl, .here ht⟩
    · rcases ih hrest with ⟨ts', rfl, hts⟩ | ⟨us', rfl, hus⟩
      · exact .inl ⟨t :: ts', rfl, .there hts⟩
      · exact .inr ⟨us', rfl, hus⟩

theorem Tree.erase_congr {r : Rule} {cs cs' : List Tree} (h : eraseAll cs' = eraseAll cs) :
    (node r cs').erase = (node r cs).erase := by
  rw [erase, erase, h]

namespace Syntax

theorem Primary.replaced (p : Primary) {t' : Tree} (h : MemberReplaced x z p.tree t') :
    ∃ p' : Primary, t' = p'.tree ∧ (t'.erase = p.tree.erase ∨ Renames x z Primary.type p p') := by
  cases p with
  | inherited y =>
    rcases h with _ | _ | hcs
    · exact ⟨.inherited z, rfl, .inr fun k hz => misses_nameType hz⟩
    · obtain ⟨_, rfl, h₁⟩ := hcs.of_leaf
      obtain ⟨_, rfl, h₂⟩ := h₁.of_leaf
      obtain ⟨_, rfl, h₃⟩ := h₂.of_leaf
      cases h₃
  | group inner =>
    rcases h with _ | _ | hcs
    obtain ⟨_, rfl, h₁⟩ := hcs.of_leaf
    rcases h₁ with hinner | h₂
    · obtain ⟨inner', rfl, -⟩ := hinner.exists_node (by decide)
      exact ⟨.group inner', rfl, .inl rfl⟩
    · obtain ⟨_, rfl, h₃⟩ := h₂.of_leaf
      cases h₃
  | array elements =>
    rcases h with _ | _ | hcs
    obtain ⟨_, rfl, harray⟩ := hcs.only
    obtain ⟨_, rfl, helements⟩ := harray.exists_node (by decide)
    obtain ⟨elements', rfl, -⟩ := helements.of_leaf
    exact ⟨.array elements', rfl, .inl rfl⟩
  | creation parts =>
    rcases h with _ | _ | hcs
    obtain ⟨_, rfl, hcreation⟩ := hcs.only
    obtain ⟨_, rfl, hparts⟩ := hcreation.exists_node (by decide)
    obtain ⟨parts', rfl, -⟩ := hparts.of_leaf
    exact ⟨.creation parts', rfl, .inl rfl⟩
  | truth value =>
    cases value
    all_goals
      rcases h with _ | _ | hcs
      obtain ⟨_, rfl, hnil⟩ := hcs.of_leaf
      cases hnil
  | _ =>
    rcases h with _ | _ | hcs
    obtain ⟨_, rfl, hnil⟩ := hcs.of_leaf
    cases hnil

theorem Call.replaced (c : Call) {t' : Tree} (h : MemberReplaced x z c.tree t') :
    ∃ c' : Call, t' = c'.tree ∧ (t'.erase = c.tree.erase ∨ Renames x z Call.type c c') := by
  cases c with
  | primary callee suffixes =>
    rw [tree] at h ⊢
    obtain ⟨cs', rfl, hcs⟩ := h.exists_node (by decide)
    rcases hcs with hcallee | @⟨_, _, suffixes', -⟩
    · obtain ⟨callee', rfl, hkept⟩ := callee.replaced hcallee
      refine ⟨.primary callee' suffixes, rfl, hkept.imp_left fun herase => erase_congr ?_⟩
      simp only [eraseAll, herase]
    · exact ⟨.primary callee suffixes', rfl, .inl rfl⟩
  | function parts =>
    rw [tree] at h ⊢
    obtain ⟨cs', rfl, hcs⟩ := h.exists_node (by decide)
    obtain ⟨_, rfl, hfunction⟩ := hcs.only
    obtain ⟨parts', rfl, -⟩ := hfunction.exists_node (by decide)
    exact ⟨.function parts', rfl, .inl rfl⟩

theorem Unary.replaced (u : Unary) {t' : Tree} (h : MemberReplaced x z u.tree t') :
    ∃ u' : Unary, t' = u'.tree ∧ (t'.erase = u.tree.erase ∨ Renames x z Unary.type u u') := by
  cases u with
  | signed operator operand =>
    rw [tree] at h ⊢
    obtain ⟨cs', rfl, hcs⟩ := h.exists_node (by decide)
    obtain ⟨_, rfl, h₁⟩ := hcs.of_leaf
    obtain ⟨_, rfl, hoperand⟩ := h₁.only
    obtain ⟨operand', rfl, -⟩ := hoperand.exists_node (by decide)
    exact ⟨.signed operator operand', rfl, .inl rfl⟩
  | call c =>
    rw [tree] at h ⊢
    obtain ⟨cs', rfl, hcs⟩ := h.exists_node (by decide)
    obtain ⟨_, rfl, hcall⟩ := hcs.only
    obtain ⟨c', rfl, hkept⟩ := c.replaced hcall
    refine ⟨.call c', rfl, hkept.imp_left fun herase => erase_congr ?_⟩
    simp only [eraseAll, herase]

section Chain

variable {α : Type} {tree : α → Tree} {type : Standing → α → Except AnalysisError (Option Ty)}
  (hoperand : ∀ (a : α) {t' : Tree}, MemberReplaced x z (tree a) t' →
    ∃ a', t' = tree a' ∧ (t'.erase = (tree a).erase ∨ Renames x z type a a'))
include hoperand

theorem Chain.restTrees_replaced (rest : List (Kind × α)) {ts' : List Tree}
    (h : MemberReplacedIn x z (restTrees tree rest) ts') :
    ∃ rest', ts' = restTrees tree rest' ∧ rest' ≠ [] ∧ (eraseAll ts' = eraseAll (restTrees tree rest) ∨
      ∀ k : Standing, k.scopes.find? z.text (some .variables) = none →
        ∀ check, Misses x z.text k (checkRest (type k) check rest) (checkRest (type k) check rest')) := by
  induction rest generalizing ts' with
  | nil => cases h
  | cons p rest ih =>
    obtain ⟨operator, a⟩ := p
    rw [restTrees] at h ⊢
    obtain ⟨_, rfl, h₁⟩ := h.of_leaf
    rcases h₁ with ha | hrest
    · obtain ⟨a', rfl, herase | hrenames⟩ := hoperand a ha
      · refine ⟨(operator, a') :: rest, rfl, List.cons_ne_nil _ _, .inl ?_⟩
        simp only [eraseAll, herase]
        rfl
      · refine ⟨(operator, a') :: rest, rfl, List.cons_ne_nil _ _, .inr fun k hz check => ?_⟩
        exact (hrenames k hz).bind _ _
    · obtain ⟨rest', rfl, -, herase | hmisses⟩ := ih hrest
      · refine ⟨(operator, a) :: rest', rfl, List.cons_ne_nil _ _, .inl ?_⟩
        simp only [eraseAll, herase]
        rfl
      · refine ⟨(operator, a) :: rest', rfl, List.cons_ne_nil _ _, .inr fun k hz check => ?_⟩
        exact .bind_right fun right => .bind_right fun _ => hmisses k hz check

theorem Chain.replaced {r : Rule} (hr : r ≠ .assignment ∧ r ≠ .primary)
    (check : Standing → Option Ty → Kind → Option Ty → Except AnalysisError Unit) (result : Ty) (c : Chain α)
    {t' : Tree} (h : MemberReplaced x z (c.tree r tree) t') :
    ∃ c' : Chain α, t' = c'.tree r tree ∧ (t'.erase = (c.tree r tree).erase ∨
      Renames x z (fun k c => Chain.type (type k) (check k) result c) c c') := by
  obtain ⟨a, rest⟩ := c
  rw [Chain.tree] at h ⊢
  obtain ⟨cs', rfl, hcs⟩ := h.exists_node hr
  rcases hcs with hfirst | hrest
  · obtain ⟨a', rfl, herase | hrenames⟩ := hoperand a hfirst
    · exact ⟨⟨a', rest⟩, rfl, .inl (erase_congr (by simp only [eraseAll, herase]))⟩
    · refine ⟨⟨a', rest⟩, rfl, .inr fun k hz => ?_⟩
      cases rest with
      | nil => exact hrenames k hz
      | cons p rest => exact (hrenames k hz).bind _ _
  · obtain ⟨rest', rfl, hne, herase | hmisses⟩ := Chain.restTrees_replaced hoperand rest hrest
    · exact ⟨⟨a, rest'⟩, rfl, .inl (erase_congr (by simp only [eraseAll, herase]))⟩
    · refine ⟨⟨a, rest'⟩, rfl, .inr fun k hz => ?_⟩
      cases rest with
      | nil => cases hrest
      | cons p rest =>
        obtain ⟨p', rest', rfl⟩ := List.exists_cons_of_ne_nil hne
        exact .bind_right fun left => (hmisses k hz (check k left)).bind _ _

end Chain

theorem LogicOr.replaced (e : LogicOr) {t' : Tree} (h : MemberReplaced x z (LogicOr.tree e) t') :
    ∃ e' : LogicOr, t' = LogicOr.tree e' ∧ (t'.erase = (LogicOr.tree e).erase ∨ Renames x z LogicOr.type e e') := by
  have hfactor := Chain.replaced (x := x) (z := z) (r := .factor) Unary.replaced (by decide) checkArithmetic Ty.num
  have hterm := Chain.replaced (r := .term) hfactor (by decide) checkArithmetic Ty.num
  have hcomparison := Chain.replaced (r := .comparison) hterm (by decide) checkArithmetic Ty.boolean
  have hequality := Chain.replaced (r := .equality) hcomparison (by decide) (fun _ => checkEquality) Ty.boolean
  have hand := Chain.replaced (r := .logicAnd) hequality (by decide) (fun _ => checkLogical "and") Ty.boolean
  exact Chain.replaced (r := .logicOr) hand (by decide) (fun _ => checkLogical "or") Ty.boolean e h

end Syntax

end Replaced

end CompiScript
