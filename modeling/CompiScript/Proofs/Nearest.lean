import CompiScript.Proofs.Decisions.Lookahead
import CompiScript.Proofs.Reading.Statements

namespace CompiScript

open Phrase

namespace Tree

inductive StandsIn (u : Tree) : List Lexeme → Tree → List Lexeme → Prop
  | root : StandsIn u [] u []
  | child {r : Rule} {left right : List Tree} {t : Tree} {before after : List Lexeme} (h : StandsIn u before t after) :
      StandsIn u (leavesAll left ++ before) (.node r (left ++ t :: right)) (after ++ leavesAll right)

theorem StandsIn.leaves {u t : Tree} {before after : List Lexeme} (h : StandsIn u before t after) :
    t.leaves = before ++ u.leaves ++ after := by
  induction h with
  | root => simp
  | child h ih => simp [Tree.leaves, leavesAll_append, leavesAll, ih]

theorem StandsIn.trans {u v t : Tree} {before after left right : List Lexeme} (h : StandsIn u before v after)
    (hv : StandsIn v left t right) : StandsIn u (left ++ before) t (after ++ right) := by
  induction hv with
  | root => simpa using h
  | child _ ih =>
    rw [List.append_assoc, ← List.append_assoc after]
    exact ih.child

theorem StandsIn.only {u t : Tree} {before after : List Lexeme} (h : StandsIn u before t after) (r : Rule) :
    StandsIn u before (.node r [t]) after := by
  simpa [leavesAll] using @StandsIn.child u r [] [] t before after h

def IsOpen (t : Tree) : Prop :=
  ∃ cs, t = .node .ifStmt cs ∧ ∀ c ∈ cs, c.isKind .elseWord = false

end Tree

open CompiScript.Tree

def Settled (trees : List Tree) (next : List Kind) : Prop :=
  ∀ left t right, trees = left ++ t :: right → ∀ u before after, StandsIn u before t after → u.IsOpen →
    ((after ++ leavesAll right).map (·.kind) ++ next).head? ≠ some .elseWord

namespace Settled

theorem nil (next : List Kind) : Settled [] next := by
  intro left t right h
  simp at h

theorem leaf (x : Lexeme) (next : List Kind) : Settled [.leaf x] next := by
  intro left t right h u before after hu hopen
  obtain ⟨-, rfl, -⟩ : left = [] ∧ t = .leaf x ∧ right = [] := by
    simpa [List.singleton_eq_append_iff] using h
  cases hu
  obtain ⟨cs, hcs, -⟩ := hopen
  cases hcs

theorem node {r : Rule} {trees : List Tree} {next : List Kind} (h : Settled trees next)
    (hself : (Tree.node r trees).IsOpen → next.head? ≠ some .elseWord) : Settled [.node r trees] next := by
  intro left t right heq u before after hu hopen
  obtain ⟨-, rfl, rfl⟩ : left = [] ∧ t = .node r trees ∧ right = [] := by
    simpa [List.singleton_eq_append_iff] using heq
  cases hu with
  | root => exact hself hopen
  | child hu =>
    rw [leavesAll, List.append_nil]
    exact h _ _ _ rfl _ _ _ hu hopen

end Settled

theorem Covers.kinds {tokens rest : List Token} {trees : List Tree} (h : Covers tokens trees rest) :
    ∃ n, (leavesAll trees).map (·.kind) ++ rest.map (·.kind) = tokens.map (·.kind) ++ List.replicate n .eof := by
  obtain ⟨used, n, rfl, hn, hleaves⟩ := h
  refine ⟨n, ?_⟩
  rw [hleaves]
  rcases Nat.eq_zero_or_pos n with rfl | hpos
  · simp
  · simp [hn (by omega), Lexeme.eof]

theorem Settled.append {xs ys : List Tree} {middle rest : List Token} (hx : Settled xs (middle.map (·.kind)))
    (hy : Settled ys (rest.map (·.kind))) (hcovers : Covers middle ys rest) :
    Settled (xs ++ ys) (rest.map (·.kind)) := by
  intro left t right heq u before after hu hopen
  rcases List.append_eq_append_iff.mp heq with ⟨more, hleft, hmore⟩ | ⟨more, hxs, hmore⟩
  · exact hy _ _ _ hmore _ _ _ hu hopen
  · cases more with
    | nil => exact hy [] _ _ hmore.symm _ _ _ hu hopen
    | cons v vs =>
      obtain ⟨rfl, rfl⟩ := List.cons.inj hmore
      have hnext := hx _ _ _ hxs _ _ _ hu hopen
      obtain ⟨n, hn⟩ := hcovers.kinds
      rw [List.append_eq, leavesAll_append, ← List.append_assoc, List.map_append, List.append_assoc, hn,
        ← List.append_assoc]
      cases hks : (after ++ leavesAll vs).map (·.kind) ++ middle.map (·.kind) with
      | nil => cases n <;> simp [List.replicate_succ]
      | cons k ks =>
        rw [hks] at hnext
        exact hnext

namespace Choice

variable {after : List Phrase} {ending : Ending} {tokens : List Token}

theorem follow_ne {settle : Bool → List Ahead → Kind → Option Bool} {b : Bool}
    (hsettle : ∀ ended stack k, settle ended stack k ≠ some b) (ended : Bool) (seen : String) (stack : List Ahead) :
    Ahead.follow settle ending ended seen stack tokens ≠ .ok b := by
  induction tokens generalizing ended seen stack with
  | nil =>
    intro h
    simp only [Ahead.follow, bind, Except.bind] at h
    split at h
    · cases h
    · split at h
      · next answer hanswer =>
        cases h
        exact hsettle _ _ _ hanswer
      · cases h
  | cons t ts ih =>
    intro h
    simp only [Ahead.follow] at h
    split at h
    · next answer hanswer =>
      cases h
      exact hsettle _ _ _ hanswer
    · split at h
      · exact ih _ _ _ h
      · cases h

theorem settleElse_ne_false (hend : canEnd after = false) (ended : Bool) (stack : List Ahead) (k : Kind) :
    settleElse after ended stack k ≠ some false := by
  unfold settleElse
  rw [hend]
  grind

theorem ne_else_of_chooseElse {part : Phrase} (hend : canEnd after = false)
    (h : chooseElse ending part after tokens = .ok false) : (tokens.map (·.kind)).head? ≠ some .elseWord := by
  cases tokens with
  | nil => simp
  | cons t ts =>
    intro hkind
    have helse : t.kind = .elseWord := by simpa using hkind
    have hlook : look ending (t :: ts) 0 = .ok t := rfl
    simp only [chooseElse, hlook, bind, Except.bind, helse, ne_eq, not_true_eq_false, if_false, hend] at h
    split at h
    · cases h
    · exact follow_ne (settleElse_ne_false hend) _ _ _ h

end Choice

section Reading

variable {ending : Ending} {here outer : List Phrase} {tokens rest : List Token} {trees : List Tree}

theorem Reads.last {a b : Phrase} (h : Reads ending (.seq a b) here outer tokens trees rest) :
    ∃ middle ys, Reads ending b here outer middle ys rest ∧ ys ⊆ trees := by
  cases h with
  | seq ha hb => exact ⟨_, _, hb, List.subset_append_right _ _⟩

theorem Reads.else_of_if (hend : canEnd outer = false)
    (h : Reads ending Rule.ifStmt.phrase [] outer tokens trees rest) :
    (∃ c ∈ trees, c.isKind .elseWord = true) ∨ (rest.map (·.kind)).head? ≠ some .elseWord := by
  obtain ⟨_, xs₁, h, hs₁⟩ := h.last
  obtain ⟨_, xs₂, h, hs₂⟩ := h.last
  obtain ⟨_, xs₃, h, hs₃⟩ := h.last
  obtain ⟨_, xs₄, h, hs₄⟩ := h.last
  obtain ⟨_, xs₅, h, hs₅⟩ := h.last
  cases h with
  | skip _ hc => exact .inr (Choice.ne_else_of_chooseElse hend hc)
  | take _ _ h =>
    cases h with
    | @seq _ _ _ _ _ xs _ _ _ ha _ =>
      cases ha with
      | @token _ _ _ _ x _ ht =>
        have hmem : Tree.leaf x ∈ trees := hs₁ (hs₂ (hs₃ (hs₄ (hs₅ (by simp)))))
        exact .inl ⟨_, hmem, ht.kind⟩

theorem Reads.settled {form : Phrase} (h : Reads ending form here outer tokens trees rest)
    (hend : canEnd (here ++ outer) = false) : Settled trees (rest.map (·.kind)) := by
  induction h with
  | nothing | skip | stop => exact .nil _
  | token | oneOf => exact .leaf _ _
  | @rule r here outer tokens trees rest h ih =>
    refine (ih hend).node ?_
    rintro ⟨cs, hnode, hnone⟩
    cases hnode
    rcases h.else_of_if hend with ⟨c, hc, hkind⟩ | hnext
    · rw [hnone c hc] at hkind
      cases hkind
    · exact hnext
  | seq _ hb iha ihb => exact (iha (canEnd_cons hend)).append (ihb hend) hb.covers
  | again _ _ _ _ hm iha ihm => exact (iha (canEnd_cons hend)).append (ihm hend) hm.covers
  | idle _ _ _ ih => exact ih (canEnd_cons hend)
  | take _ _ _ ih | first _ _ _ ih | second _ _ _ ih => exact ih hend

end Reading

section Programs

variable {text : String} {d : Derived}

theorem parseText_settled (h : parseText .program text = .ok d) :
    ∃ trees next, d.tree = .node .program trees ∧ Settled trees next := by
  obtain ⟨trees, rest, hd, hreads⟩ := parseText_reads h
  refine ⟨trees, rest.map (·.kind), hd, ?_⟩
  cases hreads with
  | seq ha hb =>
    have hleaf := hb.covers
    cases hb with
    | token => exact (ha.settled rfl).append (.leaf _ _) hleaf

theorem parseText_program_leaves (h : parseText .program text = .ok d) :
    d.tree.leaves = (Lexed.ofString text).tokens.map Token.toLexeme ++ [Lexeme.eof] := by
  obtain ⟨trees, used, rest, n, htree, -, htokens, hn, hleaves⟩ := parseText_covers h
  have hused : (used.map Token.toLexeme).countP (·.kind = .eof) = 0 := by
    rw [List.countP_eq_zero]
    rintro x hx
    obtain ⟨t, ht, rfl⟩ := List.mem_map.mp hx
    simpa using Lexed.ofString_kind_ne_eof text t (htokens ▸ List.mem_append_left _ ht)
  have hcount : n = 1 := by
    have hderives := (parseText_spells h).derives
    rw [htree] at hderives
    cases hderives with
    | rule hform =>
      have hends := hform.count_ends
      rw [hleaves, List.countP_append, hused, List.countP_replicate] at hends
      simpa [Lexeme.eof] using hends
  subst hcount
  rw [htree, Tree.leaves, hleaves, htokens, hn (by omega), List.append_nil]
  rfl

/-- An `if` of a program that has no `else` is not followed by one, and where an `if` has an `else`, all those that end
with its first branch have one, too. -/
theorem else_of_nearest_if (h : parseText .program text = .ok d) {cs : List Tree} {before after : List Lexeme}
    (hif : StandsIn (.node .ifStmt cs) before d.tree after) :
    (Lexed.ofString text).tokens.map Token.toLexeme ++ [Lexeme.eof] = before ++ leavesAll cs ++ after ∧
      ((∀ c ∈ cs, c.isKind .elseWord = false) → ∀ x, after.head? = some x → x.kind ≠ .elseWord) ∧
      ∀ front branch x back, cs = front ++ branch :: .leaf x :: back → x.kind = .elseWord →
        ∀ ds inside, StandsIn (.node .ifStmt ds) inside branch [] → ∃ c ∈ ds, c.isKind .elseWord = true := by
  obtain ⟨trees, next, htree, hsettled⟩ := parseText_settled h
  have hnext : ∀ ds left right, StandsIn (.node .ifStmt ds) left d.tree right →
      (∀ c ∈ ds, c.isKind .elseWord = false) → ∀ x, right.head? = some x → x.kind ≠ .elseWord := by
    intro ds left right hin hnone x hx
    rw [htree] at hin
    cases hin with
    | @child _ front back _ _ behind hin =>
      have hhead := hsettled _ _ _ rfl _ _ _ hin ⟨ds, rfl, hnone⟩
      obtain ⟨xs, hxs⟩ := List.head?_eq_some_iff.mp hx
      rw [hxs] at hhead
      simpa using hhead
  refine ⟨?_, hnext cs before after hif, ?_⟩
  · rw [← parseText_program_leaves h, hif.leaves]
    rfl
  · rintro front branch x back rfl hx ds inside hin
    refine Classical.byContradiction fun hnone => ?_
    have hbranch : StandsIn (.node .ifStmt ds) (leavesAll front ++ inside)
        (.node .ifStmt (front ++ branch :: .leaf x :: back)) (x :: leavesAll back) :=
      hin.child
    exact hnext ds _ _ (hbranch.trans hif) (by simpa using hnone) x rfl hx

end Programs

section Nested

open Syntax

def innerIf : Statement :=
  .ifElse (.ofPrimary (.truth true)) (.expression (.ofPrimary (.truth true))) (.expression (.ofPrimary (.truth true)))

def innerLoop : Statement :=
  .whileLoop (.ofPrimary (.truth true)) innerIf

def nestedIfs : Program :=
  ⟨[.statement (.ifThen (.ofPrimary (.truth true))
    (.ifElse (.ofPrimary (.truth true)) innerLoop (.expression (.ofPrimary (.truth true)))))]⟩

theorem else_of_nearest_if_of_nested :
    ∃ d cs front back ds before inside,
      parseText .program "if (true) if (true) while (true) if (true) true; else true; else true;" = .ok d ∧
      StandsIn (.node .ifStmt cs) [] d.tree [Lexeme.eof] ∧ (∀ c ∈ cs, c.isKind .elseWord = false) ∧
      (∀ x, [Lexeme.eof].head? = some x → x.kind ≠ .elseWord) ∧
      StandsIn (.node .ifStmt (front ++ innerLoop.tree :: sign .elseWord :: back)) before d.tree [Lexeme.eof] ∧
      StandsIn (.node .ifStmt ds) inside innerLoop.tree [] ∧ ∃ c ∈ ds, c.isKind .elseWord = true := by
  obtain ⟨d, hd, htree⟩ := exists_derived_tree
    "if (true) if (true) while (true) if (true) true; else true; else true;" nestedIfs (by decide +kernel)
  have hfirst : ∃ cs, StandsIn (.node .ifStmt cs) [] d.tree [Lexeme.eof] ∧ ∀ c ∈ cs, c.isKind .elseWord = false := by
    rw [← htree]
    exact ⟨_, @StandsIn.child _ _ [] [_] _ _ _ ((StandsIn.root.only _).only _),
      by simp [sign, Lexeme.literal, Expression.ofPrimary, Expression.tree, Statement.tree, Tree.isKind]⟩
  have hsecond : ∃ front back before,
      StandsIn (.node .ifStmt (front ++ innerLoop.tree :: sign .elseWord :: back)) before d.tree [Lexeme.eof] := by
    rw [← htree]
    exact ⟨[_, _, _, _], [_], _, @StandsIn.child _ _ [] [_] _ _ _
      (((@StandsIn.child _ _ [_, _, _, _] [] _ _ _ (StandsIn.root.only _)).only _).only _)⟩
  have hthird : ∃ ds inside, StandsIn (.node .ifStmt ds) inside innerLoop.tree [] :=
    ⟨_, _, (@StandsIn.child _ _ [_, _, _, _] [] _ _ _ (StandsIn.root.only _)).only _⟩
  obtain ⟨cs, hfirst, hnone⟩ := hfirst
  obtain ⟨front, back, before, hsecond⟩ := hsecond
  obtain ⟨ds, inside, hthird⟩ := hthird
  exact ⟨d, cs, front, back, ds, before, inside, hd, hfirst, hnone, (else_of_nearest_if hd hfirst).2.1 hnone, hsecond,
    hthird, (else_of_nearest_if hd hsecond).2.2 front _ _ back rfl rfl ds inside hthird⟩

end Nested

end CompiScript
