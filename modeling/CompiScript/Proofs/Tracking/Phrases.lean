import CompiScript.Proofs.Following

/-!
The machine that reads ahead follows every text: what it leaves of its stack gives the rest of the text, or all
of its stack could be empty and the text goes on behind it.
-/

namespace CompiScript

open Phrase

namespace Rule

def level : Rule → Nat
  | program => 15
  | declaration => 14
  | statement => 13
  | exprStmt => 12
  | arguments => 12
  | expression => 11
  | assignment => 10
  | logicOr => 9
  | logicAnd => 8
  | equality => 7
  | comparison => 6
  | term => 5
  | factor => 4
  | unary => 3
  | call => 2
  | primary => 1
  | _ => 0

end Rule

def Phrase.shallow (n : Nat) : Phrase → Bool
  | nothing => true
  | token _ => true
  | oneOf _ => true
  | rule r => r.level < n
  | seq a b => a.shallow n && (!a.nullable || b.shallow n)
  | option _ a => a.shallow n
  | many _ a => a.shallow n
  | either _ a b => a.shallow n && b.shallow n

theorem Rule.shallow_phrase (r : Rule) : r.phrase.shallow r.level = true := by
  cases r <;> rfl

theorem Phrase.shallow_mono {m n : Nat} (hmn : m ≤ n) {p : Phrase} (h : p.shallow m = true) :
    p.shallow n = true := by
  induction p with
  | rule r =>
    simp only [shallow, decide_eq_true_eq] at h ⊢
    omega
  | seq a b iha ihb =>
    simp only [shallow, Bool.and_eq_true, Bool.or_eq_true] at h ⊢
    exact ⟨iha h.1, h.2.imp_right ihb⟩
  | option c a ih => exact ih h
  | many c a ih => exact ih h
  | either c a b iha ihb =>
    simp only [shallow, Bool.and_eq_true] at h ⊢
    exact ⟨iha h.1, ihb h.2⟩
  | _ => rfl

theorem Phrase.shallow_depth (p : Phrase) : p.shallow Rule.depth = true := by
  induction p with
  | rule r => cases r <;> rfl
  | seq a b iha ihb => simp [shallow, iha, ihb]
  | option c a ih => exact ih
  | many c a ih => exact ih
  | either c a b iha ihb => simp [shallow, iha, ihb]
  | _ => rfl

theorem Yields.starts_rule {r : Rule} {D : List Phrase} {k : Kind} {w : List Kind}
    (h : Yields (rule r :: D) (k :: w)) : r.starts k = true := by
  have hcases : Phrase.canStart [rule r] k = true ∨ canEnd [rule r] = true ∧ Yields D (k :: w) := h.canStart
  simpa [Phrase.canStart, canEnd, nullable, Phrase.starts, startsWith] using hcases

namespace Ahead

variable {k : Kind}

theorem readPhrase_starts {readRule : Rule → Kind → Option (List Ahead)}
    (hrule : ∀ r left, readRule r k = some left → r.starts k = true) {p : Phrase} {left : List Ahead}
    (h : readPhrase readRule p k = some left) : p.starts k = true := by
  induction p generalizing left with
  | nothing => cases h
  | token t =>
    simp only [readPhrase, Option.ite_none_right_eq_some] at h
    simp [Phrase.starts, startsWith, h.1]
  | oneOf ts =>
    simp only [readPhrase, Option.ite_none_right_eq_some] at h
    exact h.1
  | rule r => exact hrule r left h
  | seq a b iha ihb =>
    simp only [Phrase.starts, startsWith, Bool.or_eq_true, Bool.and_eq_true] at iha ihb ⊢
    simp only [readPhrase] at h
    split at h
    · next inner ha => exact .inl (iha ha)
    · split at h
      · next hnullable => exact .inr ⟨hnullable, ihb h⟩
      · cases h
  | option c a ih => exact ih h
  | many c a ih =>
    obtain ⟨inner, ha, -⟩ := Option.map_eq_some_iff.mp h
    exact ih ha
  | either c a b iha ihb =>
    simp only [Phrase.starts, startsWith, Bool.or_eq_true] at iha ihb ⊢
    exact (readPhrase_either h).imp iha ihb

theorem readRule_starts {n : Nat} {r : Rule} {left : List Ahead} (h : readRule n r k = some left) :
    r.starts k = true := by
  have hassignment : ([Rule.funAnon, .primary, .logicOr].all fun r =>
      within r.starts Rule.assignment.starts) = true := by
    decide +kernel
  simp only [List.all_cons, List.all_nil, Bool.and_true, Bool.and_eq_true, within_iff] at hassignment
  induction n generalizing r k left with
  | zero => cases h
  | succ n ih =>
    have hphrase : ∀ {r : Rule} {left : List Ahead},
        readPhrase (readRule n) r.phrase k = some left → r.starts k = true := by
      intro r left h
      rw [← r.starts_phrase]
      exact readPhrase_starts (fun _ _ => ih) h
    rcases readRule_cases h with ⟨rfl, rfl, -⟩ | ⟨rfl, rfl, -⟩ | ⟨rfl, inner, hinner, -⟩ |
      ⟨rfl, inner, hinner, -⟩ | ⟨rfl, hleft⟩ | ⟨-, hleft⟩
    · rfl
    · rfl
    · exact hassignment.1 k (hphrase hinner)
    · exact hassignment.2.1 k (hphrase hinner)
    · exact hassignment.2.2 k (hphrase hleft)
    · exact hphrase hleft

/-- The machine goes the way of the text: what it leaves gives the rest, or nothing of the phrase is there. -/
def Tracks (p : Phrase) (result : Option (List Ahead)) (D : List Phrase) (k : Kind) (w : List Kind) : Prop :=
  (∃ left, result = some left ∧ Yields (left.map content ++ D) w) ∨
    result = none ∧ p.nullable = true ∧ Yields D (k :: w)

def RulesTrack (n : Nat) : Prop :=
  ∀ (r : Rule) (D : List Phrase) (k : Kind) (w : List Kind), r.level < n →
    (∀ k, canStart D k = true → r.follow k = true) → Dangling D → Yields (.rule r :: D) (k :: w) →
    ∃ left, readRule n r k = some left ∧ Yields (left.map content ++ D) w

theorem readPhrase_tracks {n : Nat} (hrules : RulesTrack n) {p : Phrase} {D : List Phrase} {w : List Kind}
    (hshallow : p.shallow n = true)
    (hfits : p.fits (canStart D) = true) (hD : Dangling D) (h : Yields (p :: D) (k :: w)) :
    Tracks p (readPhrase (readRule n) p k) D k w := by
  induction p generalizing D w with
  | nothing => exact .inr ⟨rfl, rfl, yields_nothing.mp h⟩
  | token t =>
    obtain ⟨rfl, hw⟩ := yields_token_cons.mp h
    exact .inl ⟨[], by simp [readPhrase], hw⟩
  | oneOf ts =>
    obtain ⟨l, v, hl, hv, hw⟩ := yields_oneOf.mp h
    cases hv
    exact .inl ⟨[], by simp [readPhrase, hl], hw⟩
  | rule r => exact .inl (hrules r D k w (of_decide_eq_true hshallow) (within_iff.mp hfits) hD h)
  | seq a b iha ihb =>
    simp only [shallow, Bool.and_eq_true, Bool.or_eq_true, Bool.not_eq_true'] at hshallow
    simp only [Phrase.fits, Bool.and_eq_true] at hfits
    rcases iha (D := b :: D) hshallow.1 hfits.1.1 (hD.cons hfits.2) (yields_seq.mp h) with
      ⟨left, hread, hleft⟩ | ⟨hread, hnullable, hrest⟩
    · refine .inl ⟨left ++ [phrase b], by simp [readPhrase, hread], ?_⟩
      rw [List.map_append, List.append_assoc]
      exact hleft
    · have hb := ihb (hshallow.2.resolve_left (by simp [hnullable])) hfits.1.2 hD hrest
      simpa [Tracks, readPhrase, hread, hnullable, nullable] using hb
  | option c a ih =>
    simp only [Phrase.fits, Bool.and_eq_true, Bool.or_eq_true, Bool.not_eq_true', beq_iff_eq] at hfits
    have hbody : Yields (a :: D) (k :: w) → Tracks (.option c a) (readPhrase (readRule n) a k) D k w := by
      intro ha
      rcases ih hshallow hfits.1.1 hD ha with hleft | ⟨-, hnullable, -⟩
      · exact .inl hleft
      · rw [hfits.1.2] at hnullable
        cases hnullable
    rcases yields_option.mp h with hskip | htake
    · cases hread : readPhrase (readRule n) a k with
      | none => exact .inr ⟨hread, rfl, hskip⟩
      | some left =>
        have hstarts := readPhrase_starts (fun _ _ => readRule_starts) hread
        rcases hfits.2 with rfl | hapart
        · -- An `else` that the text gives to a phrase further behind is read here.
          have hk : .elseWord = k := by
            simpa [elsePart, row, Phrase.starts, startsWith, nullable] using hstarts
          subst hk
          exact hread ▸ hbody (hD.swap hskip)
        · have hnot := apart_iff.mp hapart k hstarts
          rw [hskip.canStart_all] at hnot
          cases hnot
    · exact hbody htake
  | many c a ih =>
    simp only [Phrase.fits, Bool.and_eq_true, Bool.not_eq_true'] at hfits
    obtain ⟨⟨⟨hfits', hnullable⟩, hapart⟩, hloose⟩ := hfits
    rcases yields_many.mp h with hstop | hmore
    · refine .inr ⟨?_, rfl, hstop⟩
      cases hread : readPhrase (readRule n) a k with
      | none => simp [readPhrase, hread]
      | some left =>
        have hnot := apart_iff.mp hapart k (readPhrase_starts (fun _ _ => readRule_starts) hread)
        rw [hstop.canStart_all] at hnot
        cases hnot
    · rcases ih (D := .many c a :: D) hshallow hfits' (hD.cons hloose) hmore with
        ⟨left, hread, hleft⟩ | ⟨-, hnullable', -⟩
      · refine .inl ⟨left ++ [phrase (.many c a)], by simp [readPhrase, hread], ?_⟩
        rw [List.map_append, List.append_assoc]
        exact hleft
      · rw [hnullable] at hnullable'
        cases hnullable'
  | either c a b iha ihb =>
    simp only [shallow, Bool.and_eq_true] at hshallow
    simp only [Phrase.fits, Bool.and_eq_true, Bool.not_eq_true'] at hfits
    obtain ⟨⟨⟨⟨hfitsa, hfitsb⟩, hnulla⟩, hnullb⟩, hapart⟩ := hfits
    rcases yields_either.mp h with ha | hb
    · rcases iha hshallow.1 hfitsa hD ha with ⟨left, hread, hleft⟩ | ⟨-, hnullable, -⟩
      · exact .inl ⟨left, by simp [readPhrase, hread], hleft⟩
      · rw [hnulla] at hnullable
        cases hnullable
    · rcases ihb hshallow.2 hfitsb hD hb with ⟨left, hread, hleft⟩ | ⟨-, hnullable, -⟩
      · have hstarts := readPhrase_starts (fun _ _ => readRule_starts) hread
        cases hfirst : readPhrase (readRule n) a k with
        | none => exact .inl ⟨left, by simp [readPhrase, hfirst, hread], hleft⟩
        | some inner =>
          have hnot := apart_iff.mp hapart k (readPhrase_starts (fun _ _ => readRule_starts) hfirst)
          rw [hstarts] at hnot
          cases hnot
      · rw [hnullb] at hnullable
        cases hnullable

theorem dangling_place {a : Ahead} (ha : a ∈ [target, operand, function]) {D : List Phrase} (hD : Dangling D)
    (hfollow : ∀ k, canStart D k = true → Rule.assignment.follow k = true) : Dangling (a.content :: D) := by
  refine hD.cons (loose_mono hfollow ?_)
  have hall : ([target, operand, function].all fun a => a.content.loose Rule.assignment.follow) = true := by
    decide
  exact List.all_eq_true.mp hall a ha

theorem yields_statement_fun {D : List Phrase} {w : List Kind}
    (h : Yields (.rule .statement :: D) (.funWord :: w)) :
    Yields (.token .openParen :: .optional [.rule .parameters] :: .token .closeParen :: .rule .block :: closing ::
      .token .semicolon :: D) w := by
  rw [yields_rule, Rule.phrase] at h
  simp only [choose, yields_either] at h
  rcases h with h | h | h | h | h | h | h
  · rcases yields_assignment.mp (yields_expression.mp (yields_seq.mp (yields_rule.mp h))) with
      ⟨v, hv, -⟩ | h | h | ⟨k, v, hk, hv, -⟩
    · cases hv
    · cases h.starts_rule
    · exact (yields_token_cons.mp (yields_row.mp (yields_rule.mp h))).2
    · cases hv
      simp at hk
  all_goals cases h.starts_rule

theorem yields_declared {D : List Phrase} {w : List Kind} (h : Yields (.rule .declaration :: D) (.funWord :: w)) :
    Yields (declared.content :: D) w := by
  rw [yields_rule, Rule.phrase] at h
  simp only [choose, yields_either] at h
  refine yields_either.mpr ?_
  rcases h with h | h | h | h
  · cases h.starts_rule
  · exact .inl (yields_token_cons.mp (yields_seq.mp (yields_rule.mp h))).2
  · cases h.starts_rule
  · exact .inr (yields_row.mpr (yields_statement_fun h))

end Ahead

end CompiScript
