import CompiScript.Proofs.Prefixes.Reader

namespace CompiScript

open Phrase

namespace Position

def Before (p q : Position) : Prop :=
  p.line < q.line ∨ p.line = q.line ∧ p.column < q.column

theorem Before.trans {p q r : Position} (hpq : p.Before q) (hqr : q.Before r) : p.Before r := by
  simp only [Before] at *
  omega

theorem before_next (p : Position) (c : Char) : p.Before (p.next c) := by
  unfold next
  split
  · exact .inl (Nat.lt_succ_self _)
  · exact .inr ⟨rfl, Nat.lt_succ_self _⟩

theorem before_advance (p : Position) (c : Char) (cs : List Char) : p.Before (p.advance (c :: cs)) := by
  induction cs generalizing p c with
  | nil => exact p.before_next c
  | cons d cs ih => exact (p.before_next c).trans (ih (p.next c) d)

end Position

namespace Lexed

def stream (lexed : Lexed) : List Token :=
  lexed.tokens ++
    match lexed.ending with
    | .finish p => [Token.eof p]
    | .fault _ => []

theorem scan_ordered (p : Position) (cs : List Char) :
    (∀ t ∈ (scan p cs).stream, t.position = p ∨ p.Before t.position) ∧
      (scan p cs).stream.Pairwise fun s t => s.position.Before t.position := by
  fun_induction scan p cs with
  | case1 p => simp [stream, Token.eof]
  | case2 p c rest h => simp [stream]
  | case3 p c rest n segment after k h ih =>
    have hbehind : ∀ t ∈ after.stream, p.Before t.position := by
      intro t ht
      rcases ih.1 t ht with hpos | hpos
      · rw [hpos]
        exact p.before_advance c _
      · exact (p.before_advance c _).trans hpos
    refine ⟨List.forall_mem_cons.mpr ⟨.inl rfl, fun t ht => .inr (hbehind t ht)⟩, ?_⟩
    exact List.pairwise_cons.mpr ⟨hbehind, ih.2⟩
  | case4 p c rest r n h segment after hr ih =>
    refine ⟨fun t ht => .inr ?_, ih.2⟩
    rcases ih.1 t ht with hpos | hpos
    · rw [hpos]
      exact p.before_advance c _
    · exact (p.before_advance c _).trans hpos

theorem stream_take (lexed : Lexed) {used rest : List Token} (htokens : lexed.tokens = used ++ rest) :
    lexed.stream.take used.length = used := by
  rw [stream, htokens, List.append_assoc, List.take_left' rfl]

theorem stream_getElem (lexed : Lexed) {used rest : List Token} {t : Token}
    (htokens : lexed.tokens = used ++ rest) (hlook : look lexed.ending rest 0 = .ok t) :
    lexed.stream[used.length]? = some t := by
  rw [stream, htokens, List.append_assoc, List.getElem?_append_right (Nat.le_refl _), Nat.sub_self]
  cases rest with
  | nil =>
    cases hend : lexed.ending with
    | finish p =>
      rw [hend] at hlook
      cases hlook
      rfl
    | fault x =>
      rw [hend] at hlook
      cases hlook
  | cons s rest =>
    cases hlook
    rfl

theorem stream_place_inj {text : String} {i j : Nat} {s t : Token}
    (hi : (ofString text).stream[i]? = some s) (hj : (ofString text).stream[j]? = some t)
    (hline : s.position.line = t.position.line) (hcolumn : s.position.column = t.position.column) : i = j := by
  have hordered := List.pairwise_iff_getElem.mp (scan_ordered .start text.toList).2
  obtain ⟨hi', rfl⟩ := List.getElem?_eq_some_iff.mp hi
  obtain ⟨hj', rfl⟩ := List.getElem?_eq_some_iff.mp hj
  rcases Nat.lt_trichotomy i j with hlt | heq | hlt
  · have hbefore := hordered i j hi' hj' hlt
    simp only [Position.Before] at hbefore
    simp only [ofString] at hline hcolumn
    omega
  · exact heq
  · have hbefore := hordered j i hj' hi' hlt
    simp only [Position.Before] at hbefore
    simp only [ofString] at hline hcolumn
    omega

end Lexed

theorem SyntaxError.exists_token {e : SyntaxError} (he : ∀ x, e ≠ .lexical x) :
    ∃ t, e.token? = some t ∧ t.position = e.position := by
  cases e with
  | lexical x => exact absurd rfl (he x)
  | mismatched t ks => exact ⟨t, rfl, rfl⟩
  | extraneous t ks => exact ⟨t, rfl, rfl⟩
  | missing ks t => exact ⟨t, rfl, rfl⟩
  | noAlternative text t => exact ⟨t, rfl, rfl⟩

theorem parseText_blames {text : String} {e : SyntaxError} (h : parseText .program text = .error e) :
    Blames (Lexed.ofString text).ending [.rule .program] (Lexed.ofString text).tokens e := by
  simp only [parseText, Lexed.parse, bind, Except.bind] at h
  split at h
  · next hlook =>
    cases h
    exact .of_none (look_error hlook)
  split at h
  · next hparse =>
    cases h
    exact parse_program_blames hparse
  · cases h

/-- A syntax error stands at a token, and the tokens before that token are the beginning of a program. -/
theorem exists_sentence_of_error {text : String} {e : SyntaxError} (h : parseText .program text = .error e)
    (he : ∀ x, e ≠ .lexical x) :
    (∃ (i : Nat) (t : Token), (Lexed.ofString text).stream[i]? = some t ∧ t.position = e.position) ∧
      ∀ (i : Nat) (t : Token), (Lexed.ofString text).stream[i]? = some t →
        t.position.line = e.position.line → t.position.column = e.position.column →
        ∃ rest, Rule.program.Sentence (((Lexed.ofString text).stream.take i).map (·.kind) ++ rest) := by
  obtain ⟨t, ht, hposition⟩ := e.exists_token he
  obtain ⟨used, rest, htokens, hlook, v, hv⟩ := parseText_blames h t ht
  have hindex := (Lexed.ofString text).stream_getElem htokens hlook
  refine ⟨⟨used.length, t, hindex, hposition⟩, ?_⟩
  intro i s hs hline hcolumn
  rw [← hposition] at hline hcolumn
  cases Lexed.stream_place_inj hs hindex hline hcolumn
  rw [(Lexed.ofString text).stream_take htokens]
  exact ⟨v, Rule.sentence_iff.mpr (yields_single.mp hv)⟩

theorem exists_sentence_of_error_in_index :
    ∃ e, parseText .program "a.b(c).d[e f] = g;" = .error e ∧ (∀ x, e ≠ .lexical x) ∧
      e.position = ⟨1, 11, 11⟩ ∧
      ∃ rest, Rule.program.Sentence ([.identifier, .dot, .identifier, .openParen, .identifier, .closeParen,
        .dot, .identifier, .openBracket, .identifier] ++ rest) := by
  have hrun : (match parseText .program "a.b(c).d[e f] = g;" with
      | .ok _ => false
      | .error e => e.position = ⟨1, 11, 11⟩ && e.token?.isSome) = true := by
    decide +kernel
  have htokens : (Lexed.ofString "a.b(c).d[e f] = g;").stream[10]? = some ⟨⟨.identifier, "f"⟩, ⟨1, 11, 11⟩⟩ ∧
      ((Lexed.ofString "a.b(c).d[e f] = g;").stream.take 10).map (·.kind) =
        [.identifier, .dot, .identifier, .openParen, .identifier, .closeParen, .dot, .identifier, .openBracket,
          .identifier] := by
    decide +kernel
  split at hrun
  · cases hrun
  · next e he =>
    simp only [Bool.and_eq_true, decide_eq_true_eq] at hrun
    obtain ⟨hposition, htoken⟩ := hrun
    have hnot : ∀ x, e ≠ .lexical x := by
      rintro x rfl
      cases htoken
    refine ⟨e, he, hnot, hposition, ?_⟩
    have hsentence := (exists_sentence_of_error he hnot).2 10 _ htokens.1 (by rw [hposition]) (by rw [hposition])
    rwa [htokens.2] at hsentence

end CompiScript
