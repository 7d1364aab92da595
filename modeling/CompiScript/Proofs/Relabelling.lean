import CompiScript.Proofs.Productions

namespace CompiScript

mutual

def Tree.relabel (f : Lexeme → Lexeme) : Tree → Tree
  | .leaf x => .leaf (f x)
  | .node r cs => .node r (Tree.relabelAll f cs)

def Tree.relabelAll (f : Lexeme → Lexeme) : List Tree → List Tree
  | [] => []
  | t :: ts => t.relabel f :: Tree.relabelAll f ts

end

attribute [simp] Tree.relabel Tree.relabelAll

@[simp]
theorem Tree.relabelAll_append (f : Lexeme → Lexeme) (ts us : List Tree) :
    Tree.relabelAll f (ts ++ us) = Tree.relabelAll f ts ++ Tree.relabelAll f us := by
  induction ts with
  | nil => rfl
  | cons t ts ih => rw [List.cons_append, relabelAll, relabelAll, ih, List.cons_append]

section Kinds

variable {p p' : Position} {tokens tokens' : List Token}

def Kin (tokens tokens' : List Token) : Prop :=
  tokens'.map (·.kind) = tokens.map (·.kind)

theorem look_kin (h : Kin tokens tokens') (p p' : Position) (n : Nat) :
    ∃ t t', look (.finish p) tokens n = .ok t ∧ look (.finish p') tokens' n = .ok t' ∧ t'.kind = t.kind := by
  have hget : (tokens'[n]?).map (·.kind) = (tokens[n]?).map (·.kind) := by
    rw [← List.getElem?_map, ← List.getElem?_map, h]
  rw [look, look]
  cases ht : tokens[n]? with
  | none =>
    have ht' : tokens'[n]? = none := by simpa [ht] using hget
    rw [ht']
    exact ⟨_, _, rfl, rfl, rfl⟩
  | some t =>
    obtain ⟨t', ht', hkind⟩ : ∃ t', tokens'[n]? = some t' ∧ t'.kind = t.kind := by simpa [ht] using hget
    rw [ht']
    exact ⟨t, t', rfl, rfl, hkind⟩

theorem checkStart_kin (h : Kin tokens tokens') {here outer : List Phrase}
    (hok : checkStart (.finish p) here outer tokens = .ok ()) :
    checkStart (.finish p') here outer tokens' = .ok () := by
  obtain ⟨t, t', ht, ht', hkind⟩ := look_kin h p p' 0
  obtain ⟨t₂, -, ht₂, -⟩ := look_kin h p p' 1
  simp only [checkStart, ht, ht', ht₂, bind, Except.bind, hkind] at hok ⊢
  split at hok
  · next hstart =>
    rw [if_pos hstart]
    rfl
  · split at hok <;> cases hok

theorem checkAgain_kin (h : Kin tokens tokens') {here outer : List Phrase}
    (hok : checkAgain (.finish p) here outer tokens = .ok ()) :
    checkAgain (.finish p') here outer tokens' = .ok () := by
  obtain ⟨t, t', ht, ht', hkind⟩ := look_kin h p p' 0
  simp only [checkAgain, ht, ht', bind, Except.bind, hkind] at hok ⊢
  split at hok
  · next hstart =>
    rw [if_pos hstart]
    rfl
  · cases hok

theorem Ahead.follow_kin {settle : Bool → List Ahead → Kind → Option Bool} (h : Kin tokens tokens')
    {ended b : Bool} {seen seen' : String} {stack : List Ahead}
    (hok : follow settle (.finish p) ended seen stack tokens = .ok b) :
    follow settle (.finish p') ended seen' stack tokens' = .ok b := by
  induction tokens generalizing tokens' ended seen seen' stack with
  | nil =>
    obtain rfl : tokens' = [] := List.map_eq_nil_iff.mp h
    have heof : (Token.eof p').kind = (Token.eof p).kind := rfl
    simp only [follow, Ending.token, bind, Except.bind, heof] at hok ⊢
    split at hok
    · exact hok
    · cases hok
  | cons t ts ih =>
    obtain ⟨t', ts', rfl, hkind, hts⟩ := List.map_eq_cons_iff.mp h
    simp only [follow, hkind] at hok ⊢
    split at hok
    · exact hok
    · split at hok
      · exact ih hts hok
      · cases hok

namespace Choice

theorem ite_imp {α : Type} {c : Prop} [Decidable c] {x x' y y' z : α} (hx : x = z → x' = z) (hy : y = z → y' = z)
    (h : (if c then x else y) = z) : (if c then x' else y') = z := by
  split
  · next hc => exact hx (by rwa [if_pos hc] at h)
  · next hc => exact hy (by rwa [if_neg hc] at h)

theorem chooseNamed_kin (h : Kin tokens tokens') {b : Bool} (hok : chooseNamed (.finish p) tokens = .ok b) :
    chooseNamed (.finish p') tokens' = .ok b := by
  obtain ⟨t, t', ht, ht', hkind⟩ := look_kin h p p' 0
  obtain ⟨t₂, t₂', ht₂, ht₂', hkind₂⟩ := look_kin h p p' 1
  simp only [chooseNamed, ht, ht', ht₂, ht₂', hkind, hkind₂, bind, Except.bind] at hok ⊢
  refine ite_imp id (fun hok => ?_) hok
  split at hok
  · exact hok
  · exact hok
  · cases hok

theorem decide_kin (h : Kin tokens tokens') {c : Choice} {part : Phrase} {after : List Phrase} {b : Bool}
    (hok : c.decide (.finish p) part after tokens = .ok b) : c.decide (.finish p') part after tokens' = .ok b := by
  obtain ⟨t, t', ht, ht', hkind⟩ := look_kin h p p' 0
  obtain ⟨t₂, t₂', ht₂, ht₂', hkind₂⟩ := look_kin h p p' 1
  obtain ⟨t₃, t₃', ht₃, ht₃', hkind₃⟩ := look_kin h p p' 2
  cases c with
  | byToken =>
    simp only [decide, ht, ht', Except.map, hkind] at hok ⊢
    exact hok
  | namedFunction => exact chooseNamed_kin h hok
  | nearestIf =>
    simp only [decide, chooseElse, ht, ht', hkind, bind, Except.bind] at hok ⊢
    refine ite_imp id (fun hok => ?_) hok
    split at hok
    · exact ite_imp (Ahead.follow_kin h) id hok
    · exact Ahead.follow_kin h hok
  | wholeFunction =>
    simp only [decide, chooseWhole, ht, ht', hkind, bind, Except.bind] at hok ⊢
    exact ite_imp (Ahead.follow_kin h) id hok
  | assignmentSign =>
    simp only [decide, chooseAssignment, ht, ht', hkind, bind, Except.bind] at hok ⊢
    exact ite_imp id (Ahead.follow_kin h) hok
  | targetObject =>
    simp only [decide, chooseTarget, ht, ht', ht₂, ht₂', hkind, hkind₂, bind, Except.bind] at hok ⊢
    exact hok
  | callSuffix =>
    simp only [decide, chooseSuffix, ht, ht', ht₂, ht₂', ht₃, ht₃', hkind, hkind₂, hkind₃, bind,
      Except.bind] at hok ⊢
    exact hok

end Choice

end Kinds

def Relabelled (f : Lexeme → Lexeme) (tokens tokens' : List Token) : Prop :=
  tokens'.map Token.toLexeme = tokens.map fun t => f t.toLexeme

section Reader

variable {f : Lexeme → Lexeme} {tokens tokens' : List Token} {p p' : Position}

theorem Relabelled.kin (h : Relabelled f tokens tokens') (hkind : ∀ x, (f x).kind = x.kind) :
    Kin tokens tokens' := by
  have hkinds := congrArg (List.map Lexeme.kind) h
  simpa [Kin, hkind, Function.comp_def] using hkinds

theorem Relabelled.length_eq (h : Relabelled f tokens tokens') : tokens'.length = tokens.length := by
  simpa using congrArg List.length h

def Parsed.Follows {form : Phrase} (f : Lexeme → Lexeme) (q : Parsed form tokens) (q' : Parsed form tokens') : Prop :=
  q'.trees = Tree.relabelAll f q.trees ∧ Relabelled f q.rest q'.rest

theorem readToken_relabel (hkind : ∀ x, (f x).kind = x.kind) (heof : f .eof = .eof)
    (h : Relabelled f tokens tokens') {form : Phrase} {accepts : Kind → Bool}
    {safe : form.advances = true → accepts .eof = false} {failure failure' : Except SyntaxError SyntaxError}
    {q : Parsed form tokens} (hq : readToken (.finish p) form accepts safe failure tokens = .ok q) :
    ∃ q', readToken (.finish p') form accepts safe failure' tokens' = .ok q' ∧ q.Follows f q' := by
  have hfail : failure.bind .error ≠ (.ok q : Except SyntaxError (Parsed form tokens)) := by
    cases failure <;> simp [Except.bind]
  cases tokens with
  | nil =>
    obtain rfl : tokens' = [] := List.map_eq_nil_iff.mp h
    simp only [readToken, Ending.token] at hq ⊢
    split at hq
    · next haccepts =>
      cases hq
      refine ⟨_, dif_pos haccepts, ?_, rfl⟩
      simp [Token.eof, heof]
    · exact absurd hq hfail
  | cons t ts =>
    obtain ⟨t', ts', rfl, ht, hts⟩ := List.map_eq_cons_iff.mp h
    have hts : Relabelled f ts ts' := hts
    have hsame : t'.kind = t.kind := by rw [ht, hkind]
    obtain ⟨u, u', hu, hu', -⟩ := look_kin (hts.kin hkind) p p' 0
    simp only [readToken, hu, hu', hsame] at hq ⊢
    split at hq
    · next haccepts =>
      cases hq
      refine ⟨_, if_pos haccepts, ?_, hts⟩
      simp [ht]
    · exact absurd hq hfail

theorem parse_relabel (hkind : ∀ x, (f x).kind = x.kind) (heof : f .eof = .eof) (p p' : Position) (form : Phrase)
    (here outer : List Phrase) (tokens : List Token) {tokens' : List Token} (h : Relabelled f tokens tokens')
    {q : Parsed form tokens} (hq : parse (.finish p) form here outer tokens = .ok q) :
    ∃ q', parse (.finish p') form here outer tokens' = .ok q' ∧ q.Follows f q' := by
  revert q hq tokens'
  fun_induction parse (.finish p) form here outer tokens
  case case2 =>
    intro tokens' h q hq
    rw [parse]
    exact readToken_relabel hkind heof h hq
  case case3 =>
    intro tokens' h q hq
    rw [parse]
    exact readToken_relabel hkind heof h hq
  -- What is left ends in an error, or takes the same way with the other tokens.
  all_goals
    intro tokens' h q hq
    cases hq
  case case1 =>
    rw [parse]
    exact ⟨_, rfl, rfl, h⟩
  case case5 hp ih =>
    obtain ⟨q', hq', htrees, hrest⟩ := ih h hp
    rw [parse, hq']
    exact ⟨_, rfl, by simp [htrees], hrest⟩
  case case8 hp q hq iha ihb =>
    obtain ⟨p', hp', htrees, hrest⟩ := iha h hp
    obtain ⟨q', hq', htrees₂, hrest₂⟩ := ihb hrest hq
    rw [parse, hp']
    simp only [hq']
    exact ⟨_, rfl, by simp [htrees, htrees₂], hrest₂⟩
  case case11 hs hc =>
    rw [parse, checkStart_kin (h.kin hkind) hs]
    simp only [Choice.decide_kin (h.kin hkind) hc]
    exact ⟨_, rfl, rfl, h⟩
  case case13 hs hc p hp ih =>
    obtain ⟨q', hq', htrees, hrest⟩ := ih h hp
    rw [parse, checkStart_kin (h.kin hkind) hs]
    simp only [Choice.decide_kin (h.kin hkind) hc, hq']
    exact ⟨_, rfl, htrees, hrest⟩
  case case16 hs hc =>
    rw [parse, checkStart_kin (h.kin hkind) hs]
    simp only [Choice.decide_kin (h.kin hkind) hc]
    exact ⟨_, rfl, rfl, h⟩
  case case20 hs hc q hq _ hg hless q₂ hq₂ iha ihm =>
    obtain ⟨q', hq', htrees, hrest⟩ := iha h hq
    obtain ⟨q₂', hq₂', htrees₂, hrest₂⟩ := ihm hrest hq₂
    rw [← h.length_eq, ← hrest.length_eq] at hless
    rw [parse, checkStart_kin (h.kin hkind) hs]
    simp only [Choice.decide_kin (h.kin hkind) hc, hq', checkAgain_kin (hrest.kin hkind) hg, dif_pos hless, hq₂']
    exact ⟨_, rfl, by simp [htrees, htrees₂], hrest₂⟩
  case case21 hs hc q hq _ hg hidle ih =>
    obtain ⟨q', hq', htrees, hrest⟩ := ih h hq
    rw [← h.length_eq, ← hrest.length_eq] at hidle
    rw [parse, checkStart_kin (h.kin hkind) hs]
    simp only [Choice.decide_kin (h.kin hkind) hc, hq', checkAgain_kin (hrest.kin hkind) hg, dif_neg hidle]
    exact ⟨_, rfl, htrees, hrest⟩
  case case25 hs hc q hq ih =>
    obtain ⟨q', hq', htrees, hrest⟩ := ih h hq
    rw [parse, checkStart_kin (h.kin hkind) hs]
    simp only [Choice.decide_kin (h.kin hkind) hc, hq']
    exact ⟨_, rfl, htrees, hrest⟩
  case case27 hs hc q hq ih =>
    obtain ⟨q', hq', htrees, hrest⟩ := ih h hq
    rw [parse, checkStart_kin (h.kin hkind) hs]
    simp only [Choice.decide_kin (h.kin hkind) hc, hq']
    exact ⟨_, rfl, htrees, hrest⟩

end Reader

theorem parse_seq_eq_ok {ending : Ending} {a b : Phrase} {here outer : List Phrase} {tokens : List Token}
    {q : Parsed (.seq a b) tokens} (h : parse ending (.seq a b) here outer tokens = .ok q) :
    ∃ q₁ q₂, parse ending a (b :: here) outer tokens = .ok q₁ ∧ parse ending b here outer q₁.rest = .ok q₂ ∧
      q.trees = q₁.trees ++ q₂.trees ∧ q.rest = q₂.rest := by
  rw [parse] at h
  split at h
  · cases h
  · next q₁ hq₁ =>
    split at h
    · cases h
    · next q₂ hq₂ =>
      cases h
      exact ⟨q₁, q₂, hq₁, hq₂, rfl, rfl⟩

theorem parseText_declarations {text : String} {d : Derived} (h : parseText .program text = .ok d) :
    ∃ (p : Position) (q : Parsed (.many .byToken (.rule .declaration)) (Lexed.ofString text).tokens),
      (Lexed.ofString text).ending = .finish p ∧
      parse (.finish p) (.many .byToken (.rule .declaration)) [.token .eof] [] (Lexed.ofString text).tokens = .ok q ∧
      q.rest = [] ∧ d.tree = .node .program (q.trees ++ [.leaf .eof]) := by
  simp only [parseText, Lexed.parse, bind, Except.bind] at h
  split at h
  · cases h
  · split at h
    · cases h
    · next r hr =>
      cases h
      obtain ⟨q, q₂, hq, hq₂, htrees, -⟩ := parse_seq_eq_ok (b := .token .eof) hr
      have hsubset := (parse_reads _ _ _ _ _ q hq).rest_subset
      obtain ⟨x, rest₂, hx, htaken⟩ : ∃ x rest₂, q₂.trees = [.leaf x] ∧
          Taken (Lexed.ofString text).ending (· == .eof) q.rest x rest₂ := by
        rw [parse] at hq₂
        obtain ⟨x, hx, htaken⟩ := readToken_taken hq₂
        exact ⟨x, _, hx, htaken⟩
      generalize hrest : q.rest = rest at hsubset htaken
      cases htaken with
      | @step t u rest haccepts hlook =>
        exact absurd (beq_iff_eq.mp haccepts) (Lexed.ofString_kind_ne_eof text t (hsubset (.head _)))
      | finish haccepts htoken =>
        rw [hx, Ending.token_lexeme htoken] at htrees
        cases hending : (Lexed.ofString text).ending with
        | finish p => exact ⟨p, q, rfl, hending ▸ hq, hrest, by rw [htrees]⟩
        | fault e =>
          rw [hending] at htoken
          cases htoken

theorem exists_finish_of_parseText {text : String} {d : Derived} (h : parseText .program text = .ok d) :
    ∃ p, (Lexed.ofString text).ending = .finish p := by
  obtain ⟨p, -, hfinish, -⟩ := parseText_declarations h
  exact ⟨p, hfinish⟩

theorem parseText_relabel {f : Lexeme → Lexeme} (hkind : ∀ x, (f x).kind = x.kind) (heof : f .eof = .eof)
    {text text' : String} {d : Derived} {p' : Position} (h : parseText .program text = .ok d)
    (hend : (Lexed.ofString text').ending = .finish p')
    (htokens : Relabelled f (Lexed.ofString text).tokens (Lexed.ofString text').tokens) :
    ∃ d', parseText .program text' = .ok d' ∧ d'.tree = d.tree.relabel f ∧ d'.size = d.size := by
  obtain ⟨p, hfinish⟩ := exists_finish_of_parseText h
  obtain ⟨t, t', ht, ht', -⟩ := look_kin (htokens.kin hkind) p p' 0
  simp only [parseText, Lexed.parse, hfinish, hend, ht, ht', bind, Except.bind] at h ⊢
  split at h
  · cases h
  · next q hq =>
    cases h
    obtain ⟨q', hq', htrees, hrest⟩ := parse_relabel hkind heof p p' _ _ _ _ htokens hq
    rw [hq']
    refine ⟨_, rfl, ?_, ?_⟩
    · simp [htrees]
    · simp only [htokens.length_eq, hrest.length_eq]

end CompiScript
