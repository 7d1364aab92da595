import CompiScript.Proofs.Sentences

/-!
What the machine that reads ahead stands for. Each item on its stack has a phrase that gives what can still
come; where the machine puts alternatives together, that phrase gives what any of them gives. Whatever the
machine has read can be completed by what is left on its stack.
-/

namespace CompiScript

open Phrase

def Phrase.elsePart : Phrase :=
  row [token .elseWord, rule .statement]

section Rows

variable {a b : Phrase} {ps qs rs : List Phrase} {c : Choice} {w : List Kind}

theorem yields_row : Yields (row ps :: qs) w ↔ Yields (ps ++ qs) w := by
  induction ps generalizing w with
  | nil => exact yields_nothing
  | cons p ps ih =>
    cases ps with
    | nil => rfl
    | cons q ps =>
      simp only [row]
      rw [yields_seq]
      constructor
      · rintro ⟨u, v, rfl, hp, h⟩
        exact hp.yields (ih.mp h)
      · rintro ⟨u, v, rfl, hp, h⟩
        exact hp.yields (ih.mpr h)

theorem Yields.mono (ps : List Phrase) (hqs : ∀ v, Yields qs v → Yields rs v) (h : Yields (ps ++ qs) w) :
    Yields (ps ++ rs) w := by
  obtain ⟨u, v, rfl, hu, hv⟩ := yields_append.mp h
  exact yields_append.mpr ⟨u, v, rfl, hu, hqs v hv⟩

theorem yields_congr (ps : List Phrase) (hqs : ∀ v, Yields qs v ↔ Yields rs v) :
    Yields (ps ++ qs) w ↔ Yields (ps ++ rs) w :=
  ⟨.mono ps fun v => (hqs v).mp, .mono ps fun v => (hqs v).mpr⟩

theorem yields_append_either (ps : List Phrase) :
    Yields (ps ++ either c a b :: qs) w ↔ Yields (ps ++ a :: qs) w ∨ Yields (ps ++ b :: qs) w := by
  constructor
  · intro h
    obtain ⟨u, v, rfl, hu, hv⟩ := yields_append.mp h
    rcases yields_either.mp hv with hv | hv
    · exact .inl (yields_append.mpr ⟨u, v, rfl, hu, hv⟩)
    · exact .inr (yields_append.mpr ⟨u, v, rfl, hu, hv⟩)
  · rintro (h | h)
    · exact h.mono ps fun v hv => yields_either.mpr (.inl hv)
    · exact h.mono ps fun v hv => yields_either.mpr (.inr hv)

theorem yields_token_cons {k l : Kind} : Yields (token k :: ps) (l :: w) ↔ l = k ∧ Yields ps w := by
  rw [yields_token]
  grind

theorem yields_chain {r s : Rule} {operators : Phrase} (hr : r.phrase = chain operators s) :
    Yields (rule r :: ps) w ↔ Yields (rule s :: repeated [operators, rule s] :: ps) w := by
  rw [yields_rule, hr, chain, yields_row]
  rfl

end Rows

namespace Ahead

def suffix : Phrase :=
  choose
    [row [token .openParen, optional [rule .arguments], token .closeParen], row [token .dot, token .identifier],
      row [token .openBracket, rule .expression, token .closeBracket]]

def suffixes : Phrase :=
  many .callSuffix suffix

def member : Phrase :=
  row [token .dot, token .identifier, token .equal, rule .assignment]

def assigned : Phrase :=
  row [option .targetObject (row [rule .call, token .dot]), token .identifier, token .equal, rule .assignment]

def closing : Phrase :=
  either .byToken member (row operators)

def content : Ahead → Phrase
  | phrase p => p
  | target => either .byToken (row [token .equal, rule .assignment]) (seq suffixes closing)
  | operand => seq suffixes closing
  | function => closing
  | declared =>
    either .byToken (rule .function)
      (row [token .openParen, optional [rule .parameters], token .closeParen, rule .block, closing,
        token .semicolon])

end Ahead

open Ahead

section Operands

variable {ps : List Phrase} {k : Kind} {w : List Kind}

theorem yields_unary : Yields (rule .unary :: ps) w ↔
    (∃ k v, k ∈ [Kind.bang, .minus] ∧ w = k :: v ∧ Yields (rule .unary :: ps) v) ∨
      Yields (rule .call :: ps) w := by
  rw [yields_rule, Rule.phrase]
  simp only [choose, yields_either, yields_row, List.cons_append, List.nil_append, yields_oneOf]

theorem yields_call : Yields (rule .call :: ps) w ↔
    Yields (rule .primary :: suffixes :: ps) w ∨ Yields (rule .funAnon :: ps) w := by
  rw [yields_rule, Rule.phrase]
  simp only [choose, yields_either, yields_row, List.cons_append, List.nil_append]
  rfl

theorem yields_logicOr : Yields (rule .logicOr :: ps) w ↔
    (∃ k v, k ∈ [Kind.bang, .minus] ∧ w = k :: v ∧ Yields (rule .unary :: (operators ++ ps)) v) ∨
      Yields (rule .call :: (operators ++ ps)) w := by
  rw [yields_chain (s := .logicAnd) rfl, yields_chain (s := .equality) rfl,
    yields_chain (s := .comparison) rfl, yields_chain (s := .term) rfl,
    yields_chain (s := .factor) rfl, yields_chain (s := .unary) rfl]
  exact yields_unary

theorem yields_closing (qs : List Phrase) : Yields (qs ++ closing :: ps) w ↔
    Yields (qs ++ member :: ps) w ∨ Yields (qs ++ (operators ++ ps)) w := by
  rw [closing, yields_append_either]
  exact or_congr Iff.rfl (yields_congr qs fun _ => yields_row)

theorem yields_operand (qs : List Phrase) : Yields (qs ++ operand.content :: ps) w ↔
    Yields (qs ++ suffixes :: closing :: ps) w :=
  yields_congr qs fun _ => yields_seq

theorem yields_assigned : Yields (assigned :: ps) w ↔
    (∃ v, w = .identifier :: .equal :: v ∧ Yields (rule .assignment :: ps) v) ∨
      Yields (rule .call :: member :: ps) w := by
  have hname : Yields (token .identifier :: token .equal :: rule .assignment :: ps) w ↔
      ∃ v, w = .identifier :: .equal :: v ∧ Yields (rule .assignment :: ps) v := by
    simp only [yields_token]
    grind
  have hmember : Yields (rule .call :: member :: ps) w ↔
      Yields (rule .call :: token .dot :: token .identifier :: token .equal :: rule .assignment :: ps) w :=
    yields_congr [rule .call] fun v => yields_row
  rw [assigned, yields_row, List.cons_append, yields_option, hmember, ← hname, yields_row]
  rfl

theorem yields_assignment : Yields (rule .assignment :: ps) w ↔
    (∃ v, w = .identifier :: .equal :: v ∧ Yields (rule .assignment :: ps) v) ∨
    Yields (rule .primary :: operand.content :: ps) w ∨
    Yields (rule .funAnon :: function.content :: ps) w ∨
    ∃ k v, k ∈ [Kind.bang, .minus] ∧ w = k :: v ∧ Yields (rule .unary :: (operators ++ ps)) v := by
  have hoperand : Yields (rule .primary :: operand.content :: ps) w ↔
      Yields (rule .primary :: suffixes :: member :: ps) w ∨
        Yields (rule .primary :: suffixes :: (operators ++ ps)) w :=
    (yields_operand [rule .primary]).trans (yields_closing [rule .primary, suffixes])
  have hfunction : Yields (rule .funAnon :: function.content :: ps) w ↔
      Yields (rule .funAnon :: member :: ps) w ∨ Yields (rule .funAnon :: (operators ++ ps)) w :=
    yields_closing [rule .funAnon]
  have hsplit : Yields (rule .assignment :: ps) w ↔
      Yields (assigned :: ps) w ∨ Yields (rule .logicOr :: ps) w :=
    yields_rule.trans yields_either
  rw [hsplit, hoperand, hfunction, yields_assigned, yields_logicOr, yields_call, yields_call]
  grind

theorem yields_expression : Yields (rule .expression :: ps) w ↔ Yields (rule .assignment :: ps) w := by
  rw [yields_rule, Rule.phrase, yields_either]
  refine or_iff_left_of_imp fun h => ?_
  refine yields_assignment.mpr (.inr (.inr (.inl ?_)))
  refine (yields_closing [rule .funAnon]).mpr (.inr ?_)
  exact h.mono [rule .funAnon] fun v hv => yields_of_canEnd rfl hv

end Operands

section Items

variable {ps : List Phrase} {k : Kind} {w : List Kind}

theorem yields_function_cons : Yields (function.content :: ps) (k :: w) ↔
    k = .dot ∧ Yields (token .identifier :: token .equal :: rule .assignment :: ps) w ∨
      Yields (operators ++ ps) (k :: w) := by
  refine (yields_closing []).trans (or_congr ?_ Iff.rfl)
  rw [List.nil_append, member, yields_row, List.cons_append, yields_token_cons]
  rfl

theorem yields_operand_cons : Yields (operand.content :: ps) (k :: w) ↔
    k = .dot ∧ Yields (token .identifier :: target.content :: ps) w ∨
    k = .openParen ∧
      Yields (optional [rule .arguments] :: token .closeParen :: operand.content :: ps) w ∨
    k = .openBracket ∧ Yields (rule .expression :: token .closeBracket :: operand.content :: ps) w ∨
    Yields (operators ++ ps) (k :: w) := by
  have htarget : Yields (token .identifier :: target.content :: ps) w ↔
      Yields (token .identifier :: token .equal :: rule .assignment :: ps) w ∨
        Yields (token .identifier :: suffixes :: closing :: ps) w := by
    refine (yields_append_either [token .identifier]).trans (or_congr ?_ (yields_operand [token .identifier]))
    exact yields_congr [token .identifier] fun v => yields_row
  have harguments := @yields_operand ps w [optional [rule .arguments], token .closeParen]
  have hindex := @yields_operand ps w [rule .expression, token .closeBracket]
  have hsuffix : Yields (suffixes :: closing :: ps) (k :: w) ↔
      Yields (function.content :: ps) (k :: w) ∨
      k = .openParen ∧
        Yields (optional [rule .arguments] :: token .closeParen :: suffixes :: closing :: ps) w ∨
      k = .dot ∧ Yields (token .identifier :: suffixes :: closing :: ps) w ∨
      k = .openBracket ∧
        Yields (rule .expression :: token .closeBracket :: suffixes :: closing :: ps) w := by
    rw [suffixes, yields_many, ← suffixes, suffix]
    simp only [choose, yields_either, yields_row, List.cons_append, List.nil_append, yields_token_cons]
    rfl
  simp only [List.cons_append, List.nil_append] at harguments hindex
  have hoperand : Yields (operand.content :: ps) (k :: w) ↔ Yields (suffixes :: closing :: ps) (k :: w) :=
    yields_seq
  rw [htarget, harguments, hindex, hoperand, hsuffix, yields_function_cons]
  grind

theorem yields_target_cons : Yields (target.content :: ps) (k :: w) ↔
    k = .equal ∧ Yields (rule .assignment :: ps) w ∨ Yields (operand.content :: ps) (k :: w) := by
  rw [content, yields_either, yields_row, List.cons_append, yields_token_cons]
  rfl

theorem yields_declared_cons : Yields (declared.content :: ps) (k :: w) ↔
    k = .openParen ∧ Yields (optional [rule .parameters] :: token .closeParen :: rule .block ::
      function.content :: token .semicolon :: ps) w ∨ Yields (rule .function :: ps) (k :: w) := by
  refine yields_either.trans (or_comm.trans (or_congr ?_ Iff.rfl))
  rw [yields_row, List.cons_append, yields_token_cons]
  rfl

end Items

end CompiScript
