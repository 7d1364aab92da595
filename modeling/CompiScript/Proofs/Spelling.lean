import CompiScript.Token.Lexer

namespace CompiScript

namespace LexicalRule

theorem longest?_eq_none {rs : List LexicalRule} {cs : List Char} (h : longest? rs cs = none) :
    ∀ s ∈ rs, s.length? cs = none := by
  induction rs with
  | nil => simp
  | cons q rs ih =>
    simp only [longest?] at h
    cases hq : q.length? cs with
    | some k =>
      cases hl : longest? rs cs with
      | none => simp [hq, hl] at h
      | some best =>
        simp only [hq, hl] at h
        split at h <;> simp at h
    | none =>
      simp only [hq] at h
      intro s hs
      rcases List.mem_cons.mp hs with rfl | hs
      · exact hq
      · exact ih h s hs

theorem longest?_eq_some {rs : List LexicalRule} {cs : List Char} {r : LexicalRule} {n : Nat}
    (h : longest? rs cs = some (r, n)) :
    ∃ before after, rs = before ++ r :: after ∧ r.length? cs = some n ∧
      (∀ s ∈ before, ∀ m, s.length? cs = some m → m < n) ∧
        ∀ s ∈ after, ∀ m, s.length? cs = some m → m ≤ n := by
  induction rs generalizing r n with
  | nil => simp [longest?] at h
  | cons q rs ih =>
    simp only [longest?] at h
    cases hq : q.length? cs with
    | none =>
      simp only [hq] at h
      obtain ⟨before, after, rfl, hr, hb, ha⟩ := ih h
      refine ⟨q :: before, after, rfl, hr, ?_, ha⟩
      intro s hs m hm
      rcases List.mem_cons.mp hs with rfl | hs
      · simp [hq] at hm
      · exact hb s hs m hm
    | some k =>
      cases hl : longest? rs cs with
      | none =>
        simp only [hq, hl, Option.some.injEq, Prod.mk.injEq] at h
        obtain ⟨rfl, rfl⟩ := h
        refine ⟨[], rs, rfl, hq, by simp, ?_⟩
        intro s hs m hm
        simp [longest?_eq_none hl s hs] at hm
      | some best =>
        obtain ⟨s, m⟩ := best
        obtain ⟨before, after, he, hs, hb, ha⟩ := ih hl
        simp only [hq, hl] at h
        split at h
        · simp only [Option.some.injEq, Prod.mk.injEq] at h
          obtain ⟨rfl, rfl⟩ := h
          refine ⟨q :: before, after, by rw [he]; rfl, hs, ?_, ha⟩
          intro t ht j hj
          rcases List.mem_cons.mp ht with rfl | ht
          · simp only [hq, Option.some.injEq] at hj
            omega
          · exact hb t ht j hj
        · -- nothing behind the head matches more than it does
          simp only [Option.some.injEq, Prod.mk.injEq] at h
          obtain ⟨rfl, rfl⟩ := h
          refine ⟨[], rs, rfl, hq, by simp, ?_⟩
          intro t ht j hj
          rw [he] at ht
          rcases List.mem_append.mp ht with ht | ht
          · have := hb t ht j hj
            omega
          · rcases List.mem_cons.mp ht with rfl | ht
            · simp only [hs, Option.some.injEq] at hj
              omega
            · have := ha t ht j hj
              omega

theorem length?_literal {k : Kind} {s : String} (h : k.spelling? = some s) (cs : List Char) :
    (token k).length? cs = literalLength s cs := by
  cases k <;> simp only [Kind.spelling?, reduceCtorEq] at h <;> simp [length?, Kind.spelling?, h]

theorem literalLength_eq_some {s : String} {cs : List Char} {n : Nat}
    (h : literalLength s cs = some n) : n = s.length ∧ cs.take n = s.toList := by
  simp only [literalLength] at h
  split at h
  · next hp =>
    simp only [Option.some.injEq] at h
    subst h
    obtain ⟨rest, rfl⟩ := List.isPrefixOf_iff_prefix.mp hp
    exact ⟨rfl, List.take_left' (String.length_toList)⟩
  · simp at h

theorem literalLength_take {cs : List Char} {n : Nat} (h : n ≤ cs.length) :
    literalLength (String.ofList (cs.take n)) cs = some n := by
  simp only [literalLength, String.toList_ofList]
  rw [if_pos (List.isPrefixOf_iff_prefix.mpr (List.take_prefix n cs)), String.length_ofList,
    List.length_take_of_le h]

theorem identifierLength_le {cs : List Char} {n : Nat} (h : identifierLength cs = some n) :
    n ≤ cs.length := by
  cases cs with
  | nil => simp [identifierLength] at h
  | cons c rest =>
    simp only [identifierLength, Option.ite_none_right_eq_some, Option.some.injEq] at h
    have := (List.takeWhile_prefix isIdentifierPart (l := rest)).length_le
    simp only [List.length_cons]
    omega

theorem mem_before_identifier {before after : List LexicalRule}
    (h : all = before ++ token .identifier :: after) {k : Kind} (hk : k ∈ Kind.literals) :
    token k ∈ before := by
  have hnot : token .identifier ∉ Kind.literals.map token := by decide
  rcases List.append_eq_append_iff.mp h with ⟨mid, rfl, -⟩ | ⟨mid, hm, he⟩
  · exact List.mem_append_left _ (List.mem_map_of_mem hk)
  · cases mid with
    | nil =>
      rw [List.append_nil] at hm
      rw [← hm]
      exact List.mem_map_of_mem hk
    | cons x mid =>
      simp only [List.cons_append, List.cons.injEq] at he
      exact absurd (by rw [hm, ← he.1]; simp) hnot

end LexicalRule

namespace Kind

theorem spelling_pos {k : Kind} {s : String} (h : k.spelling? = some s) : 0 < s.length := by
  cases k <;> simp only [spelling?, Option.some.injEq, reduceCtorEq] at h <;> subst h <;> decide

theorem ofSpelling?_eq_some {text : String} {k : Kind} (h : ofSpelling? text = some k) :
    k.spelling? = some text := by
  have := List.find?_some h
  simpa using this

theorem mem_literals {k : Kind} {s : String} (h : k.spelling? = some s) : k ∈ literals := by
  simp [literals, mem_all, h]

end Kind

namespace Lexeme

def literal (k : Kind) : Lexeme :=
  ⟨k, k.spelling?.getD ""⟩

structure Spelt (x : Lexeme) : Prop where
  of_literal : ∀ s, x.kind.spelling? = some s → x.text = s
  of_identifier : x.kind = .identifier → Kind.ofSpelling? x.text = none
  of_eof : x.kind = .eof → x = eof

theorem Spelt.eof : eof.Spelt :=
  ⟨by simp [Lexeme.eof, Kind.spelling?], by simp [Lexeme.eof], fun _ => rfl⟩

theorem Spelt.eq_literal {x : Lexeme} (hx : x.Spelt) {k : Kind} (hk : x.kind = k)
    (h : k.spelling?.isSome = true) : x = literal k := by
  obtain ⟨s, hs⟩ := Option.isSome_iff_exists.mp h
  subst hk
  have := hx.of_literal s hs
  cases x
  simp_all [literal]

end Lexeme

namespace LexicalRule

theorem longest?_spelt {cs : List Char} {k : Kind} {n : Nat}
    (h : longest? all cs = some (token k, n)) : Lexeme.Spelt ⟨k, String.ofList (cs.take n)⟩ := by
  obtain ⟨before, after, he, hk, hb, -⟩ := longest?_eq_some h
  refine ⟨?_, ?_, ?_⟩
  · intro s hs
    rw [length?_literal hs] at hk
    rw [(literalLength_eq_some hk).2, String.ofList_toList]
  · intro hid
    simp only at hid
    subst hid
    cases hl : Kind.ofSpelling? (String.ofList (cs.take n)) with
    | none => rfl
    | some l =>
      have hs := Kind.ofSpelling?_eq_some hl
      have hlen := length?_literal hs cs
      rw [literalLength_take (identifierLength_le hk)] at hlen
      have := hb _ (mem_before_identifier he (Kind.mem_literals hs)) n hlen
      omega
  · intro heof
    simp only at heof
    subst heof
    simp [length?, Kind.spelling?] at hk

theorem numberLength_pos {cs : List Char} {n : Nat} (h : numberLength cs = some n) : 0 < n := by
  simp only [numberLength] at h
  split at h
  · simp at h
  · split at h <;> simp only [Option.some.injEq] at h <;> grind
  · grind

theorem length?_pos {r : LexicalRule} {cs : List Char} {n : Nat} (h : r.length? cs = some n) :
    0 < n := by
  cases r with
  | blank =>
    simp only [length?, blankLength] at h
    split at h
    · simp at h
    · next hne =>
      simp only [Option.some.injEq] at h
      have := List.length_pos_iff.mpr hne
      omega
  | comment =>
    simp only [length?] at h
    unfold commentLength at h
    split at h
    · dsimp only at h
      split at h <;> simp only [Option.some.injEq] at h <;> omega
    · simp at h
  | token k =>
    cases hs : k.spelling? with
    | some s =>
      rw [length?_literal hs] at h
      have := Kind.spelling_pos hs
      have := (literalLength_eq_some h).1
      omega
    | none =>
      cases k <;> simp only [Kind.spelling?, reduceCtorEq] at hs
      · simp [length?, Kind.spelling?] at h
      · exact numberLength_pos h
      · simp only [length?] at h
        unfold stringLength at h
        split at h
        · split at h <;> simp only [Option.some.injEq, reduceCtorEq] at h
          omega
        · simp at h
      · simp only [length?] at h
        unfold identifierLength at h
        split at h
        · split at h <;> simp only [Option.some.injEq, reduceCtorEq] at h
          omega
        · simp at h

end LexicalRule

namespace Lexed

theorem scan_spelt (p : Position) (cs : List Char) :
    ∀ t ∈ (scan p cs).tokens, t.toLexeme.Spelt := by
  fun_induction scan p cs with
  | case1 p => simp
  | case2 p c rest h => simp
  | case3 p c rest n segment after k h ih =>
    obtain ⟨before, behind, -, hk, -⟩ := LexicalRule.longest?_eq_some h
    have hn := LexicalRule.length?_pos hk
    have hsegment : segment = (c :: rest).take n := by
      obtain ⟨m, rfl⟩ := Nat.exists_eq_add_of_lt hn
      simp [segment]
    intro t ht
    rcases List.mem_cons.mp ht with rfl | ht
    · rw [hsegment]
      exact LexicalRule.longest?_spelt h
    · exact ih t ht
  | case4 p c rest r n h segment after hr ih => exact ih

theorem ofString_spelt (text : String) : ∀ t ∈ (ofString text).tokens, t.toLexeme.Spelt :=
  scan_spelt _ _

end Lexed

end CompiScript
