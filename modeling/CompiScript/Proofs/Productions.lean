import CompiScript.Proofs.Derivation

/-!
The grammar as it is written down: for each rule its right-hand side, without a word on how a reader
decides. What a derivation tree is and what a sentence is rests on these forms alone; the phrases that the
reader follows are the same forms together with its choices. Main statement: the reader builds derivation
trees, and their leaves are the tokens that it steps over.
-/

namespace CompiScript

inductive Form where
  | empty
  | token (kind : Kind)
  | oneOf (kinds : List Kind)
  | rule (name : Rule)
  | seq (first second : Form)
  | option (body : Form)
  | many (body : Form)
  | either (first second : Form)

namespace Form

def row : List Form → Form
  | [] => empty
  | [f] => f
  | f :: fs => seq f (row fs)

def choose : List Form → Form
  | [] => empty
  | [f] => f
  | f :: fs => either f (choose fs)

def optional (fs : List Form) : Form :=
  option (row fs)

def repeated (fs : List Form) : Form :=
  many (row fs)

end Form

open Form in
def Rule.form : Rule → Form
  | program => row [repeated [rule declaration], token .eof]
  | declaration => choose [rule classDecl, rule funDecl, rule varDecl, rule statement]
  | classDecl =>
    row [token .classWord, token .identifier, optional [token .extendsWord, token .identifier],
      token .openBrace, repeated [rule function], token .closeBrace]
  | funDecl => row [token .funWord, rule function]
  | varDecl =>
    row [token .varWord, token .identifier, optional [token .equal, rule expression], token .semicolon]
  | statement =>
    choose [rule exprStmt, rule forStmt, rule ifStmt, rule printStmt, rule returnStmt, rule whileStmt,
      rule block]
  | exprStmt => row [rule expression, token .semicolon]
  | forStmt =>
    row [token .forWord, token .openParen, choose [rule varDecl, rule exprStmt, token .semicolon],
      optional [rule expression], token .semicolon, optional [rule expression], token .closeParen,
      rule statement]
  | ifStmt =>
    row [token .ifWord, token .openParen, rule expression, token .closeParen, rule statement,
      optional [token .elseWord, rule statement]]
  | printStmt => row [token .printWord, rule expression, token .semicolon]
  | returnStmt => row [token .returnWord, optional [rule expression], token .semicolon]
  | whileStmt =>
    row [token .whileWord, token .openParen, rule expression, token .closeParen, rule statement]
  | block => row [token .openBrace, repeated [rule declaration], token .closeBrace]
  | funAnon =>
    row [token .funWord, token .openParen, optional [rule parameters], token .closeParen, rule block]
  | expression => choose [rule assignment, rule funAnon]
  | assignment =>
    choose [row [optional [rule call, token .dot], token .identifier, token .equal, rule assignment],
      rule logicOr]
  | logicOr => row [rule logicAnd, repeated [token .orWord, rule logicAnd]]
  | logicAnd => row [rule equality, repeated [token .andWord, rule equality]]
  | equality => row [rule comparison, repeated [oneOf [.notEqual, .equalEqual], rule comparison]]
  | comparison =>
    row [rule term, repeated [oneOf [.greater, .greaterEqual, .less, .lessEqual], rule term]]
  | term => row [rule factor, repeated [oneOf [.minus, .plus], rule factor]]
  | factor => row [rule unary, repeated [oneOf [.slash, .star, .percent], rule unary]]
  | array =>
    row [token .openBracket, optional [rule expression, repeated [token .comma, rule expression]],
      token .closeBracket]
  | instantiation =>
    row [token .newWord, token .identifier, token .openParen, optional [rule arguments], token .closeParen]
  | unary => choose [row [oneOf [.bang, .minus], rule unary], rule call]
  | call =>
    choose [row [rule primary, repeated [choose [row [token .openParen, optional [rule arguments],
        token .closeParen], row [token .dot, token .identifier],
        row [token .openBracket, rule expression, token .closeBracket]]]],
      rule funAnon]
  | primary =>
    choose [token .trueWord, token .falseWord, token .nilWord, token .thisWord, token .number, token .string,
      token .identifier, row [token .openParen, rule expression, token .closeParen],
      row [token .superWord, token .dot, token .identifier], rule array, rule instantiation]
  | function =>
    row [token .identifier, token .openParen, optional [rule parameters], token .closeParen, rule block]
  | parameters => row [token .identifier, repeated [token .comma, token .identifier]]
  | arguments => row [rule expression, repeated [token .comma, rule expression]]

inductive Derives : Form → List Tree → Prop
  | empty : Derives .empty []
  | token {k : Kind} {x : Lexeme} (h : x.kind = k) : Derives (.token k) [.leaf x]
  | oneOf {ks : List Kind} {x : Lexeme} (h : x.kind ∈ ks) : Derives (.oneOf ks) [.leaf x]
  | rule {r : Rule} {cs : List Tree} (h : Derives r.form cs) : Derives (.rule r) [.node r cs]
  | seq {f g : Form} {xs ys : List Tree} (hf : Derives f xs) (hg : Derives g ys) :
      Derives (.seq f g) (xs ++ ys)
  | none {f : Form} : Derives (.option f) []
  | some {f : Form} {xs : List Tree} (h : Derives f xs) : Derives (.option f) xs
  | nil {f : Form} : Derives (.many f) []
  | cons {f : Form} {xs ys : List Tree} (hf : Derives f xs) (hm : Derives (.many f) ys) :
      Derives (.many f) (xs ++ ys)
  | left {f g : Form} {xs : List Tree} (h : Derives f xs) : Derives (.either f g) xs
  | right {f g : Form} {xs : List Tree} (h : Derives g xs) : Derives (.either f g) xs

def Tree.IsDerivation (r : Rule) (t : Tree) : Prop :=
  Derives (.rule r) [t]

def Rule.Sentence (r : Rule) (kinds : List Kind) : Prop :=
  ∃ t : Tree, t.IsDerivation r ∧ t.leaves.map Lexeme.kind = kinds

def Phrase.form : Phrase → Form
  | nothing => .empty
  | token k => .token k
  | oneOf ks => .oneOf ks
  | rule r => .rule r
  | seq a b => .seq a.form b.form
  | option _ a => .option a.form
  | many _ a => .many a.form
  | either _ a b => .either a.form b.form

theorem Rule.form_phrase (r : Rule) : r.phrase.form = r.form := by
  cases r <;> rfl

theorem Spells.derives {p : Phrase} {ts : List Tree} (h : Spells p ts) : Derives p.form ts := by
  induction h with
  | nothing => exact .empty
  | token h hx => exact .token h
  | oneOf h hx => exact .oneOf h
  | @rule r cs h ih =>
    rw [r.form_phrase] at ih
    exact .rule ih
  | seq ha hb iha ihb => exact .seq iha ihb
  | none => exact .none
  | some h ih => exact .some ih
  | nil => exact .nil
  | cons ha hm iha ihm => exact .cons iha ihm
  | left h ih => exact .left ih
  | right h ih => exact .right ih

namespace Form

def hasEnd : Form → Bool
  | empty => false
  | token k => k = .eof
  | oneOf ks => ks.contains .eof
  | rule r => r = .program
  | seq f g => f.hasEnd || g.hasEnd
  | option f => f.hasEnd
  | many f => f.hasEnd
  | either f g => f.hasEnd || g.hasEnd

end Form

theorem Rule.hasEnd_form {r : Rule} (h : r ≠ .program) : r.form.hasEnd = false := by
  cases r <;> first | rfl | exact absurd rfl h

theorem Derives.kind_ne_eof {f : Form} {ts : List Tree} (h : Derives f ts) (hf : f.hasEnd = false) :
    ∀ x ∈ Tree.leavesAll ts, x.kind ≠ .eof := by
  induction h with
  | empty => simp [Tree.leavesAll]
  | @token k x hk =>
    have hne : k ≠ .eof := of_decide_eq_false hf
    simpa [Tree.leavesAll, Tree.leaves, hk] using hne
  | @oneOf ks x hk =>
    simp only [Tree.leavesAll, Tree.leaves, List.append_nil, List.mem_singleton, forall_eq]
    intro heof
    rw [heof] at hk
    simp [Form.hasEnd, hk] at hf
  | @rule r cs h ih =>
    have hr : r ≠ .program := of_decide_eq_false hf
    simpa [Tree.leavesAll, Tree.leaves] using ih (Rule.hasEnd_form hr)
  | seq hx hy ihx ihy =>
    simp only [Form.hasEnd, Bool.or_eq_false_iff] at hf
    rw [Tree.leavesAll_append]
    exact List.forall_mem_append.mpr ⟨ihx hf.1, ihy hf.2⟩
  | none => simp [Tree.leavesAll]
  | some h ih => exact ih hf
  | nil => simp [Tree.leavesAll]
  | cons hx hm ihx ihm =>
    rw [Tree.leavesAll_append]
    exact List.forall_mem_append.mpr ⟨ihx hf, ihm hf⟩
  | left h ih =>
    simp only [Form.hasEnd, Bool.or_eq_false_iff] at hf
    exact ih hf.1
  | right h ih =>
    simp only [Form.hasEnd, Bool.or_eq_false_iff] at hf
    exact ih hf.2

theorem Derives.count_ends {r : Rule} {ts : List Tree} (h : Derives r.form ts) :
    (Tree.leavesAll ts).countP (·.kind = .eof) = if r = .program then 1 else 0 := by
  by_cases hr : r = .program
  · subst hr
    cases h with
    | @seq f g ds es hd he =>
      cases he with
      | @token k x hk =>
        have hnone : (Tree.leavesAll ds).countP (·.kind = .eof) = 0 := by
          rw [List.countP_eq_zero]
          simpa using hd.kind_ne_eof rfl
        simp [Tree.leavesAll_append, Tree.leavesAll, Tree.leaves, hnone, hk]
  · rw [if_neg hr, List.countP_eq_zero]
    simpa using h.kind_ne_eof (Rule.hasEnd_form hr)

namespace Lexed

theorem scan_kind_ne_eof (p : Position) (cs : List Char) : ∀ t ∈ (scan p cs).tokens, t.kind ≠ .eof := by
  fun_induction scan p cs with
  | case1 p => simp
  | case2 p c rest h => simp
  | case3 p c rest n segment after k h ih =>
    obtain ⟨before, behind, -, hk, -⟩ := LexicalRule.longest?_eq_some h
    have hne : k ≠ .eof := by
      rintro rfl
      simp [LexicalRule.length?, Kind.spelling?] at hk
    intro t ht
    rcases List.mem_cons.mp ht with rfl | ht
    · exact hne
    · exact ih t ht
  | case4 p c rest r n h segment after hr ih => exact ih

theorem ofString_kind_ne_eof (text : String) : ∀ t ∈ (ofString text).tokens, t.kind ≠ .eof :=
  scan_kind_ne_eof _ _

end Lexed

theorem parseText_covers {start : Rule} {text : String} {d : Derived} (h : parseText start text = .ok d) :
    ∃ trees used rest n, d.tree = .node start trees ∧ d.size = used.length ∧
      (Lexed.ofString text).tokens = used ++ rest ∧ (n ≠ 0 → rest = []) ∧
      Tree.leavesAll trees = used.map Token.toLexeme ++ List.replicate n Lexeme.eof := by
  simp only [parseText, Lexed.parse, bind, Except.bind] at h
  split at h
  · cases h
  · split at h
    · cases h
    · next p hp =>
      cases h
      obtain ⟨used, n, htokens, hn, hleaves⟩ := (parse_reads _ _ _ _ _ p hp).covers
      refine ⟨p.trees, used, p.rest, n, rfl, ?_, htokens, hn, hleaves⟩
      have hlength := congrArg List.length htokens
      rw [List.length_append] at hlength
      simp only
      omega

/-- The tree of a text is a derivation tree of its start rule, and its leaves are the tokens at the head of
the text, as many as are stepped over. A program ends with the end of the text, which is a leaf but is not
stepped over. -/
theorem tree_derives_tokens {start : Rule} {text : String} {d : Derived}
    (h : parseText start text = .ok d) :
    d.tree.IsDerivation start ∧ d.size ≤ (Lexed.ofString text).tokens.length ∧
      d.tree.leaves = ((Lexed.ofString text).tokens.take d.size).map Token.toLexeme ++
        (if start = .program then [Lexeme.eof] else []) ∧
      (start = .program → d.size = (Lexed.ofString text).tokens.length) := by
  have hderives : d.tree.IsDerivation start := (parseText_spells h).derives
  obtain ⟨trees, used, rest, n, htree, hsize, htokens, hn, hleaves⟩ := parseText_covers h
  have htake : (Lexed.ofString text).tokens.take d.size = used := by
    rw [htokens, hsize, List.take_left' rfl]
  have hused : (used.map Token.toLexeme).countP (·.kind = .eof) = 0 := by
    rw [List.countP_eq_zero]
    intro x hx
    obtain ⟨t, ht, rfl⟩ := List.mem_map.mp hx
    have hmem : t ∈ (Lexed.ofString text).tokens := by
      rw [htokens]
      exact List.mem_append_left _ ht
    simpa using Lexed.ofString_kind_ne_eof text t hmem
  -- The leaves that are not tokens are ends of the text; counting them tells how many there are.
  have hcount : n = if start = .program then 1 else 0 := by
    rw [Tree.IsDerivation, htree] at hderives
    cases hderives with
    | rule hform =>
      have hends := hform.count_ends
      rw [hleaves, List.countP_append, hused, List.countP_replicate] at hends
      simpa [Lexeme.eof] using hends
  refine ⟨hderives, ?_, ?_, ?_⟩
  · rw [htokens, hsize, List.length_append]
    omega
  · rw [htree, Tree.leaves, hleaves, htake, hcount]
    split <;> rfl
  · intro hstart
    rw [if_pos hstart] at hcount
    rw [htokens, hsize, hn (by omega), List.append_nil]

theorem tree_derives_tokens_of_call :
    (∃ d, parseText .call "a.b(c)[0] = 1" = .ok d ∧ d.size = 9 ∧ d.tree.IsDerivation .call ∧
      d.tree.leaves = ((Lexed.ofString "a.b(c)[0] = 1").tokens.take 9).map Token.toLexeme) ∧
    ∃ d, parseText .program "a.b = 1;" = .ok d ∧ d.tree.IsDerivation .program ∧
      d.tree.leaves = (Lexed.ofString "a.b = 1;").tokens.map Token.toLexeme ++ [Lexeme.eof] := by
  have hcall : (match parseText .call "a.b(c)[0] = 1" with
      | .ok d => decide (d.size = 9)
      | .error _ => false) = true := by
    decide +kernel
  have hprogram : (parseText .program "a.b = 1;").isOk = true := by
    decide +kernel
  constructor
  · split at hcall
    · next d hd =>
      have hsize : d.size = 9 := of_decide_eq_true hcall
      obtain ⟨hderives, -, hleaves, -⟩ := tree_derives_tokens hd
      refine ⟨d, hd, hsize, hderives, ?_⟩
      rw [hleaves, hsize, if_neg nofun, List.append_nil]
    · cases hcall
  · cases hd : parseText .program "a.b = 1;" with
    | error e =>
      rw [hd] at hprogram
      cases hprogram
    | ok d =>
      obtain ⟨hderives, -, hleaves, hsize⟩ := tree_derives_tokens hd
      refine ⟨d, rfl, hderives, ?_⟩
      rw [hleaves, hsize rfl, List.take_length, if_pos rfl]

end CompiScript
