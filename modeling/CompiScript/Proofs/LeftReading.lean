import Mathlib.Data.List.Induction
import CompiScript.Proofs.Chains.Weighing

namespace CompiScript.Syntax

inductive Signature : Kind → Ty → Ty → Ty → Prop
  | concatenation : Signature .plus .string .string .string
  | arithmetic {k : Kind} (h : k ∈ [.plus, .minus, .star, .slash, .percent]) : Signature k .num .num .num
  | order {k : Kind} (h : k ∈ [.less, .lessEqual, .greater, .greaterEqual]) : Signature k .num .num .boolean
  | equality {k : Kind} (h : k ∈ [.equalEqual, .notEqual]) {t : Ty} (ht : t ∈ [.num, .string]) :
    Signature k t t .boolean
  | logic {k : Kind} (h : k ∈ [.andWord, .orWord]) : Signature k .boolean .boolean .boolean

/-- The type of a chain that is read from the left: its last operator takes all that stands before it as its left
operand. -/
inductive LeftTyped (s : AnalysisState) (first : Tree) : List (Kind × Tree) → Ty → Prop
  | operand {t : Ty} (h : HasType s first (some t)) : LeftTyped s first [] t
  | operation {before : List (Kind × Tree)} {k : Kind} {right : Tree} {l r t : Ty} (hl : LeftTyped s first before l)
    (hr : HasType s right (some r)) (hk : Signature k l r t) : LeftTyped s first (before ++ [(k, right)]) t

section Reading

variable {s : AnalysisState} {first : Tree} {rest : List (Kind × Tree)} {t : Ty}

def relational : List Kind :=
  [.equalEqual, .notEqual, .less, .lessEqual, .greater, .greaterEqual]

theorem Signature.of_not_relational {k : Kind} {l r : Ty} (h : Signature k l r t) (hk : k ∉ relational) :
    l = t ∧ r = t := by
  cases h with
  | concatenation | arithmetic h | logic h => exact ⟨rfl, rfl⟩
  | order h => exact absurd (List.mem_cons_of_mem _ (List.mem_cons_of_mem _ h)) hk
  | equality h ht => exact absurd (List.mem_append_left _ h) hk

theorem Signature.of_relational {k : Kind} {l r : Ty} (h : Signature k l r t) (hk : k ∈ relational) :
    l = r ∧ l ≠ .boolean ∧ t = .boolean := by
  have hdisjoint : ∀ k ∈ relational, k ∉ [Kind.plus, .minus, .star, .slash, .percent, .andWord, .orWord] := by decide
  cases h with
  | concatenation => exact absurd hk (by decide)
  | arithmetic h => exact absurd (List.mem_append_left [Kind.andWord, .orWord] h) (hdisjoint k hk)
  | logic h => exact absurd (List.mem_append_right [Kind.plus, .minus, .star, .slash, .percent] h) (hdisjoint k hk)
  | order h => exact ⟨rfl, by decide, rfl⟩
  | equality h ht => exact ⟨rfl, fun hl => absurd (hl ▸ ht) (by decide), rfl⟩

theorem LeftTyped.of_nil (h : LeftTyped s first rest t) (hrest : rest = []) : HasType s first (some t) := by
  cases h with
  | operand h => exact h
  | operation hl hr hk => exact absurd hrest (List.append_ne_nil_of_right_ne_nil _ (List.cons_ne_nil _ _))

theorem leftTyped_iff_uniform (hk : ∀ p ∈ rest, p.1 ∉ relational) :
    LeftTyped s first rest t ↔ Uniform s ⟨first, rest⟩ t ∧ ∀ p ∈ rest, Signature p.1 t t t := by
  constructor
  · intro h
    induction h with
    | operand h => exact ⟨⟨h, nofun⟩, nofun⟩
    | @operation before k right l r t hl hr hsignature ih =>
      rw [List.forall_mem_append] at hk
      obtain ⟨rfl, rfl⟩ := hsignature.of_not_relational (hk.2 _ (List.mem_singleton_self _))
      obtain ⟨⟨hfirst, hothers⟩, hsignatures⟩ := ih hk.1
      refine ⟨⟨hfirst, ?_⟩, ?_⟩
      · exact List.forall_mem_append.mpr ⟨hothers, List.forall_mem_singleton.mpr hr⟩
      · exact List.forall_mem_append.mpr ⟨hsignatures, List.forall_mem_singleton.mpr hsignature⟩
  · rintro ⟨⟨hfirst, hothers⟩, hsignatures⟩
    clear hk
    induction rest using List.reverseRecOn with
    | nil => exact .operand hfirst
    | append_singleton before p ih =>
      rw [List.forall_mem_append] at hothers hsignatures
      exact .operation (ih hsignatures.1 hfirst hothers.1) (hothers.2 p (List.mem_singleton_self p))
        (hsignatures.2 p (List.mem_singleton_self p))

theorem leftTyped_iff_single (hk : ∀ p ∈ rest, p.1 ∈ relational) (hrest : rest ≠ []) :
    LeftTyped s first rest t ↔
      t = .boolean ∧ ∃ p u, rest = [p] ∧ Uniform s ⟨first, rest⟩ u ∧ Signature p.1 u u .boolean := by
  constructor
  · intro h
    induction h with
    | operand h => exact absurd rfl hrest
    | @operation before k right l r t hl hr hsignature ih =>
      rw [List.forall_mem_append] at hk
      obtain ⟨rfl, hl', rfl⟩ := hsignature.of_relational (hk.2 _ (List.mem_singleton_self _))
      cases before with
      | nil =>
        exact ⟨rfl, (k, right), l, rfl, ⟨hl.of_nil rfl, List.forall_mem_singleton.mpr hr⟩, hsignature⟩
      | cons q before =>
        -- What stands before a second operator is a truth value, which no comparison takes.
        exact absurd (ih hk.1 (List.cons_ne_nil q before)).1 hl'
  · rintro ⟨rfl, p, u, rfl, ⟨hfirst, hothers⟩, hsignature⟩
    have hleft : LeftTyped s first [] u := .operand hfirst
    exact hleft.operation (hothers p (List.mem_singleton_self p)) hsignature

end Reading

section Signatures

variable {k : Kind} {t : Ty}

theorem signature_logic (hk : k ∈ [Kind.orWord, .andWord]) : Signature k t t t ↔ t = .boolean := by
  constructor
  · intro h
    cases h <;> grind
  · rintro rfl
    exact .logic (by grind)

theorem signature_term (hk : k ∈ Level.term.operators) : Signature k t t t ↔ t = .num ∨ t = .string ∧ k = .plus := by
  constructor
  · intro h
    cases h <;> grind [Level.operators]
  · rintro (rfl | ⟨rfl, rfl⟩)
    · exact .arithmetic (by grind [Level.operators])
    · exact .concatenation

theorem signature_factor (hk : k ∈ Level.factor.operators) : Signature k t t t ↔ t = .num := by
  constructor
  · intro h
    cases h <;> grind [Level.operators]
  · rintro rfl
    exact .arithmetic (by grind [Level.operators])

theorem signature_equality (hk : k ∈ Level.equality.operators) :
    Signature k t t .boolean ↔ t ∈ [Ty.num, .string] := by
  constructor
  · intro h
    cases h <;> grind [Level.operators]
  · intro ht
    exact .equality (by grind [Level.operators]) ht

theorem signature_comparison (hk : k ∈ Level.comparison.operators) : Signature k t t .boolean ↔ t ∈ [Ty.num] := by
  constructor
  · intro h
    cases h <;> grind [Level.operators]
  · intro ht
    obtain rfl := List.mem_singleton.mp ht
    exact .order (by grind [Level.operators])

end Signatures

/-- Where the type of a chain is not that of its reading: strings are compared by their order or taken for numbers, and
what a comparison gives is compared again. -/
def Misjudged (l : Level) (s : AnalysisState) (c : Chain Tree) : Prop :=
  l ∈ [Level.comparison, .term, .factor] ∧ Uniform s c .string ∨
    l ∈ [Level.equality, .comparison] ∧ 2 ≤ c.rest.length ∧ (Uniform s c .num ∨ Uniform s c .string)

section Comparing

variable {s : AnalysisState} {c : Chain Tree} {t : Ty}

theorem leftTyped_of_type {a : Ty} (hk : ∀ p ∈ c.rest, p.1 ∉ relational)
    (ha : ∀ p ∈ c.rest, ∀ t, Signature p.1 t t t ↔ t = a) (hrest : c.rest ≠ []) :
    LeftTyped s c.first c.rest t ↔ t = a ∧ Uniform s c a := by
  obtain ⟨p, hp⟩ := List.exists_mem_of_ne_nil c.rest hrest
  rw [leftTyped_iff_uniform hk]
  constructor
  · rintro ⟨huniform, hsignatures⟩
    obtain rfl := (ha p hp t).mp (hsignatures p hp)
    exact ⟨rfl, huniform⟩
  · rintro ⟨rfl, huniform⟩
    exact ⟨huniform, fun q hq => (ha q hq t).mpr rfl⟩

theorem leftTyped_of_types {types : List Ty} (hk : ∀ p ∈ c.rest, p.1 ∈ relational)
    (htypes : ∀ p ∈ c.rest, ∀ u, Signature p.1 u u .boolean ↔ u ∈ types) (hrest : c.rest ≠ []) :
    LeftTyped s c.first c.rest t ↔ t = .boolean ∧ c.rest.length = 1 ∧ ∃ u ∈ types, Uniform s c u := by
  rw [leftTyped_iff_single hk hrest]
  refine and_congr_right fun _ => ?_
  constructor
  · rintro ⟨p, u, hp, huniform, hsignature⟩
    have hmem : p ∈ c.rest := hp ▸ List.mem_singleton_self p
    exact ⟨by rw [hp]; rfl, u, (htypes p hmem u).mp hsignature, huniform⟩
  · rintro ⟨hlength, u, hu, huniform⟩
    obtain ⟨p, hp⟩ := List.length_eq_one_iff.mp hlength
    have hmem : p ∈ c.rest := hp ▸ List.mem_singleton_self p
    exact ⟨p, u, hp, huniform, (htypes p hmem u).mpr hu⟩

theorem leftTyped_term (hk : ∀ p ∈ c.rest, p.1 ∈ Level.term.operators) (hrest : c.rest ≠ []) :
    LeftTyped s c.first c.rest t ↔
      t = .num ∧ Uniform s c .num ∨ t = .string ∧ Uniform s c .string ∧ ∀ p ∈ c.rest, p.1 = .plus := by
  have hdisjoint : ∀ k ∈ Level.term.operators, k ∉ relational := by decide
  obtain ⟨p, hp⟩ := List.exists_mem_of_ne_nil c.rest hrest
  rw [leftTyped_iff_uniform fun p hp => hdisjoint p.1 (hk p hp)]
  constructor
  · rintro ⟨huniform, hsignatures⟩
    rcases (signature_term (hk p hp)).mp (hsignatures p hp) with rfl | ⟨rfl, -⟩
    · exact .inl ⟨rfl, huniform⟩
    · refine .inr ⟨rfl, huniform, fun q hq => ?_⟩
      exact (((signature_term (hk q hq)).mp (hsignatures q hq)).resolve_left (by decide)).2
  · rintro (⟨rfl, huniform⟩ | ⟨rfl, huniform, hplus⟩)
    · exact ⟨huniform, fun q hq => (signature_term (hk q hq)).mpr (.inl rfl)⟩
    · exact ⟨huniform, fun q hq => (signature_term (hk q hq)).mpr (.inr ⟨rfl, hplus q hq⟩)⟩

def Level.Reads (l : Level) (s : AnalysisState) (c : Chain Tree) (t : Ty) : Prop :=
  match l with
  | logicOr | logicAnd => t = .boolean ∧ Uniform s c .boolean
  | equality => t = .boolean ∧ c.rest.length = 1 ∧ ∃ u ∈ [Ty.num, .string], Uniform s c u
  | comparison => t = .boolean ∧ c.rest.length = 1 ∧ ∃ u ∈ [Ty.num], Uniform s c u
  | term => t = .num ∧ Uniform s c .num ∨ t = .string ∧ Uniform s c .string ∧ ∀ p ∈ c.rest, p.1 = .plus
  | factor => t = .num ∧ Uniform s c .num

theorem leftTyped_iff_reads (l : Level) (hk : ∀ p ∈ c.rest, p.1 ∈ l.operators) (hrest : c.rest ≠ []) :
    LeftTyped s c.first c.rest t ↔ l.Reads s c t := by
  have hclosed : ∀ l ∈ [Level.logicOr, .logicAnd, .term, .factor], ∀ k ∈ l.operators, k ∉ relational := by decide
  have hrelational : ∀ l ∈ [Level.equality, .comparison], ∀ k ∈ l.operators, k ∈ relational := by decide
  cases l with
  | logicOr =>
    exact leftTyped_of_type (fun p hp => hclosed .logicOr (by decide) p.1 (hk p hp))
      (fun p hp _ => signature_logic (by grind [Level.operators])) hrest
  | logicAnd =>
    exact leftTyped_of_type (fun p hp => hclosed .logicAnd (by decide) p.1 (hk p hp))
      (fun p hp _ => signature_logic (by grind [Level.operators])) hrest
  | equality =>
    exact leftTyped_of_types (fun p hp => hrelational .equality (by decide) p.1 (hk p hp))
      (fun p hp _ => signature_equality (hk p hp)) hrest
  | comparison =>
    exact leftTyped_of_types (fun p hp => hrelational .comparison (by decide) p.1 (hk p hp))
      (fun p hp _ => signature_comparison (hk p hp)) hrest
  | term => exact leftTyped_term hk hrest
  | factor =>
    exact leftTyped_of_type (fun p hp => hclosed .factor (by decide) p.1 (hk p hp))
      (fun p hp _ => signature_factor (hk p hp)) hrest

theorem reads_iff_of_not_misjudged (l : Level) (hrest : c.rest ≠ []) (h : ¬Misjudged l s c) :
    l.Reads s c t ↔ t = l.result ∧ ∃ u ∈ l.accepted, Uniform s c u := by
  have hlength : 0 < c.rest.length := List.length_pos_iff.mpr hrest
  cases l with
  | logicOr | logicAnd => simp [Level.Reads, Level.result, Level.accepted]
  | term | factor =>
    have hstring : ¬Uniform s c .string := fun hu => h (.inl ⟨by decide, hu⟩)
    simp [Level.Reads, Level.result, Level.accepted, hstring]
  | equality =>
    have hone : (∃ u ∈ [Ty.num, .string], Uniform s c u) → c.rest.length = 1 := by
      intro hu
      have hfew : ¬2 ≤ c.rest.length := fun htwo => h (.inr ⟨by decide, htwo, by simpa using hu⟩)
      omega
    exact and_congr_right fun _ => ⟨And.right, fun hu => ⟨hone hu, hu⟩⟩
  | comparison =>
    have hstring : ¬Uniform s c .string := fun hu => h (.inl ⟨by decide, hu⟩)
    have hone : Uniform s c .num → c.rest.length = 1 := by
      intro hu
      have hfew : ¬2 ≤ c.rest.length := fun htwo => h (.inr ⟨by decide, htwo, .inl hu⟩)
      omega
    simp only [Level.Reads, Level.result, Level.accepted, List.mem_cons, List.not_mem_nil, or_false, exists_eq_or_imp,
      exists_eq_left, hstring]
    exact and_congr_right fun _ => ⟨And.right, fun hu => ⟨hone hu, hu⟩⟩

theorem of_misjudged (l : Level) (h : Misjudged l s c) :
    (∃ u ∈ l.accepted, Uniform s c u) ∧ ∀ t, l.Reads s c t → l = .term ∧ t = .string := by
  rcases h with ⟨hl, hstring⟩ | ⟨hl, htwo, huniform⟩
  · have hnum : ¬Uniform s c .num := fun hu => absurd (hu.unique hstring) (by decide)
    simp only [List.mem_cons, List.not_mem_nil, or_false] at hl
    rcases hl with rfl | rfl | rfl
    · exact ⟨⟨.string, by decide, hstring⟩, fun t ht => absurd ht (by simp [Level.Reads, hnum])⟩
    · refine ⟨⟨.string, by decide, hstring⟩, ?_⟩
      rintro t (⟨-, hu⟩ | ⟨ht, -⟩)
      · exact absurd hu hnum
      · exact ⟨rfl, ht⟩
    · exact ⟨⟨.string, by decide, hstring⟩, fun t ht => absurd ht.2 hnum⟩
  · have hone : c.rest.length ≠ 1 := by omega
    have haccepted : ∃ u ∈ [Ty.num, .string], Uniform s c u := by simpa using huniform
    simp only [List.mem_cons, List.not_mem_nil, or_false] at hl
    rcases hl with rfl | rfl
    · exact ⟨haccepted, fun t ht => absurd ht.2.1 hone⟩
    · exact ⟨haccepted, fun t ht => absurd ht.2.1 hone⟩

/-- The visit of a chain comes to the type of the chain read from the left exactly where it is not misjudged. Where it
is, the chain is accepted with the type of its level, which is never that of the reading: only a sum of strings has a
type then, and it is a string. -/
theorem chain_type_iff_left_reading (hs : Plain s) (l : Level) (hc : Spells (.rule l.rule) [c.tree l.rule id])
    (hrest : c.rest ≠ []) :
    let tree := c.tree l.rule id
    (∀ v s', (tree.visit .alone).runFrom s = (.ok v, s') → ∃ t, v = .type (some t)) ∧
      ((∀ t, HasType s tree (some t) ↔ LeftTyped s c.first c.rest t) ↔ ¬Misjudged l s c) ∧
      (Misjudged l s c →
        HasType s tree (some l.result) ∧ ∀ t, LeftTyped s c.first c.rest t → l = .term ∧ t = .string) := by
  intro tree
  have hvisit := hasType_chain hs l hc hrest
  have hread : ∀ t, LeftTyped s c.first c.rest t ↔ l.Reads s c t :=
    fun t => leftTyped_iff_reads l (mem_operators l hc) hrest
  have hmisjudged : Misjudged l s c →
      HasType s tree (some l.result) ∧ ∀ t, LeftTyped s c.first c.rest t → l = .term ∧ t = .string := by
    intro h
    obtain ⟨haccepted, hreads⟩ := of_misjudged l h
    exact ⟨(hvisit _).mpr ⟨rfl, haccepted⟩, fun t ht => hreads t ((hread t).mp ht)⟩
  refine ⟨?_, ⟨?_, ?_⟩, hmisjudged⟩
  · intro v s' hrun
    obtain ⟨t, rfl⟩ := eq_type_of_visit hs l hc hrun
    obtain ⟨rfl, -⟩ := (hvisit t).mp ⟨s', hrun⟩
    exact ⟨l.result, rfl⟩
  · intro hagree h
    obtain ⟨htype, hsum⟩ := hmisjudged h
    obtain ⟨rfl, hresult⟩ := hsum _ ((hagree _).mp htype)
    cases hresult
  · intro h t
    rw [hvisit, hread, reads_iff_of_not_misjudged l hrest h, Option.some.injEq]

end Comparing

namespace Strings

def program : Program :=
  ⟨[.variable ⟨.named "x", some (.ofPrimary (.string "\"a\""))⟩]⟩

def variableOperand : Factor :=
  ⟨.call (.primary (.name (.named "x")) []), []⟩

def literalOperand : Factor :=
  ⟨.call (.primary (.string "\"b\"") []), []⟩

def sum : Chain Tree :=
  ⟨variableOperand.tree, [(.plus, literalOperand.tree), (.plus, variableOperand.tree)]⟩

end Strings

theorem sum_of_strings_misjudged :
    ∃ v s d, AnalysisState.start.analyse Strings.program.tree = (.ok v, s) ∧ parseText .term "x + \"b\" + x" = .ok d ∧
      d.tree = Strings.sum.tree .term id ∧ HasType s d.tree (some .num) ∧
      LeftTyped s Strings.sum.first Strings.sum.rest .string ∧
      ¬LeftTyped s Strings.sum.first Strings.sum.rest .num := by
  have hanalyse : (AnalysisState.start.analyse Strings.program.tree).1 = .ok .nothing := by decide +kernel
  have hparse : (parseText .term "x + \"b\" + x").toOption.map Derived.tree = some (Strings.sum.tree .term id) := by
    decide +kernel
  cases hd : parseText .term "x + \"b\" + x" with
  | error e => rw [hd] at hparse; cases hparse
  | ok d =>
    rw [hd] at hparse
    have htree : d.tree = Strings.sum.tree .term id := Option.some.inj hparse
    have hspells : Spells (.rule .term) [Strings.sum.tree .term id] := htree ▸ parseText_spells hd
    generalize hs : (AnalysisState.start.analyse Strings.program.tree).2 = s
    have hrun : AnalysisState.start.analyse Strings.program.tree = (.ok .nothing, s) := Prod.ext hanalyse hs
    have hx : HasType s Strings.variableOperand.tree (some .string) := by
      rw [hasType_iff (Factor.visit_run s.standing Strings.variableOperand .alone), ← hs]
      decide +kernel
    have hb : HasType s Strings.literalOperand.tree (some .string) :=
      (hasType_iff (Factor.visit_run s.standing Strings.literalOperand .alone) _).mpr rfl
    have hmisjudged : Misjudged .term s Strings.sum := .inl ⟨by decide, hx, by simp [Strings.sum, hx, hb]⟩
    obtain ⟨-, -, hstrings⟩ := chain_type_iff_left_reading (plain_of_analyse hrun) .term hspells (by decide)
    obtain ⟨htype, hread⟩ := hstrings hmisjudged
    have hone : LeftTyped s Strings.sum.first [(.plus, Strings.literalOperand.tree)] .string :=
      (LeftTyped.operand hx).operation hb .concatenation
    exact ⟨_, s, d, hrun, rfl, htree, htree ▸ htype, hone.operation hx .concatenation,
      fun h => absurd (hread _ h).2 (by decide)⟩

end CompiScript.Syntax
