import CompiScript.Proofs.Lasting

namespace CompiScript

open Phrase

def Succeeds {ε α : Type} (x : Except ε α) (P : α → Prop) : Prop :=
  ∃ a, x = .ok a ∧ P a

theorem Succeeds.of_ok {ε α : Type} {x : Except ε α} {P : α → Prop} (h : Succeeds x P) {a : α} (hx : x = .ok a) :
    P a := by
  obtain ⟨b, hb, hP⟩ := h
  cases hx.symm.trans hb
  exact hP

theorem Succeeds.ne_error {ε α : Type} {x : Except ε α} {P : α → Prop} (h : Succeeds x P) (e : ε) :
    x ≠ .error e := by
  obtain ⟨b, rfl, -⟩ := h
  exact nofun

structure Choice.Right (c : Choice) (part : Phrase) (after yes no : List Phrase) : Prop where
  finds : ∀ (p : Position) (tokens : List Token), Yields yes (Token.kinds tokens) ∨ Yields no (Token.kinds tokens) →
    Succeeds (c.decide (.finish p) part after tokens) fun b => Yields (if b then yes else no) (Token.kinds tokens)
  lasts : ∀ (p p' : Position) (tokens more : List Token) (b : Bool), Continues yes more → Continues no more →
    Yields yes (Token.kinds tokens) ∨ Yields no (Token.kinds tokens) →
    c.decide (.finish p) part after tokens = .ok b → c.decide (.finish p') part after (tokens ++ more) = .ok b

theorem Choice.Right.of_sure {c : Choice} {part : Phrase} {after yes no : List Phrase}
    (hyes : ∀ (p : Position) (tokens : List Token), Yields yes (Token.kinds tokens) →
      c.decide (.finish p) part after tokens = .ok true)
    (hno : ∀ (p : Position) (tokens : List Token), Yields no (Token.kinds tokens) →
      c.decide (.finish p) part after tokens = .ok false) : c.Right part after yes no := by
  constructor
  · rintro p tokens (h | h)
    · exact ⟨true, hyes p tokens h, h⟩
    · exact ⟨false, hno p tokens h, h⟩
  · rintro p p' tokens more b hmoreYes hmoreNo (h | h) hb
    · rw [hyes p tokens h] at hb
      cases hb
      exact hyes p' _ (hmoreYes.yields tokens h)
    · rw [hno p tokens h] at hb
      cases hb
      exact hno p' _ (hmoreNo.yields tokens h)

structure Rule.Admits (r : Rule) (C : List Phrase) : Prop where
  follow : ∀ k, canStart C k = true → r.follow k = true ∨ r = .call ∧ k = .dot
  member : r = .call → ∀ x, Yields C (.dot :: x) → ∃ y, x = .identifier :: .equal :: y
  dangling : Dangling C
  more : canEnd C = false

def Ready : Phrase → List Phrase → Prop
  | .nothing, _ => True
  | .token k, _ => k ≠ .eof
  | .oneOf ks, _ => .eof ∉ ks
  | .rule r, C => r ≠ .program ∧ r.Admits C
  | .seq a b, C => Ready a (b :: C) ∧ Ready b C
  | .option c a, C => Ready a C ∧ c.Right a C (a :: C) C
  | .many c a, C => a.advances = true ∧ Ready a (.many c a :: C) ∧
      c.Right a (.many c a :: C) (a :: .many c a :: C) C
  | .either c a b, C => Ready a C ∧ Ready b C ∧ c.Right a C (a :: C) (b :: C)

section Reader

variable {p : Position} {tokens : List Token} {here outer : List Phrase}

theorem checkStart_ok (h : Yields (here ++ outer) (Token.kinds tokens)) :
    checkStart (.finish p) here outer tokens = .ok () := by
  obtain ⟨t, w, hlook, hk⟩ := look_first tokens p
  rw [hk] at h
  have hstart : (canStart here t.kind || canEnd here) = true := by
    rw [Bool.or_eq_true]
    exact h.canStart.imp_right And.left
  simp only [checkStart, hlook, bind, Except.bind, hstart, if_true]
  rfl

theorem checkAgain_ok (h : Yields (here ++ outer) (Token.kinds tokens)) :
    checkAgain (.finish p) here outer tokens = .ok () := by
  obtain ⟨t, w, hlook, hk⟩ := look_first tokens p
  rw [hk] at h
  have hstart : (canStart here t.kind || canEnd here) = true := by
    rw [Bool.or_eq_true]
    exact h.canStart.imp_right And.left
  simp only [checkAgain, hlook, bind, Except.bind, hstart, if_true]
  rfl

theorem readToken_ok {form : Phrase} (accepts : Kind → Bool) {safe : form.advances = true → accepts .eof = false}
    {failure : Except SyntaxError SyntaxError} {k : Kind} {w : List Kind} {C : List Phrase}
    (hk : Token.kinds tokens = k :: w) (heof : k ≠ .eof) (haccepts : accepts k = true) (hw : Yields C w) :
    Succeeds (readToken (.finish p) form accepts safe failure tokens) fun q => Yields C (Token.kinds q.rest) := by
  cases tokens with
  | nil =>
    cases hk
    exact absurd rfl heof
  | cons t ts =>
    cases hk
    obtain ⟨t₂, w, hlook, hts⟩ := look_first ts p
    refine ⟨⟨[.leaf t.toLexeme], ts, by simp, fun _ => by simp⟩, ?_, hw⟩
    simp [readToken, haccepts, hlook]

theorem parse_ok (hrules : ∀ (r : Rule) (C : List Phrase), r ≠ .program → r.Admits C → Ready r.phrase C)
    (p : Position) (form : Phrase) (here outer : List Phrase) (tokens : List Token)
    (hready : Ready form (here ++ outer)) (h : Yields (form :: (here ++ outer)) (Token.kinds tokens)) :
    Succeeds (parse (.finish p) form here outer tokens) fun q => Yields (here ++ outer) (Token.kinds q.rest) := by
  fun_induction parse (.finish p) form here outer tokens
  case case1 => exact ⟨_, rfl, yields_nothing.mp h⟩
  case case2 k =>
    obtain ⟨w, hw, hyields⟩ := yields_token.mp h
    exact readToken_ok (· == k) hw hready (beq_self_eq_true k) hyields
  case case3 ks =>
    obtain ⟨k, w, hk, hw, hyields⟩ := yields_oneOf.mp h
    have heof : k ≠ .eof := fun heof => hready (heof ▸ hk)
    exact readToken_ok ks.contains hw heof (List.contains_iff_mem.mpr hk) hyields
  case case4 r e he ih =>
    exact absurd he ((ih (hrules r _ hready.1 hready.2) (yields_rule.mp h)).ne_error e)
  case case5 r q hq ih => exact ⟨_, rfl, (ih (hrules r _ hready.1 hready.2) (yields_rule.mp h)).of_ok hq⟩
  case case6 a b e he ih => exact absurd he ((ih hready.1 (yields_seq.mp h)).ne_error e)
  case case7 a b q hq e he iha ihb =>
    have hyields := (iha hready.1 (yields_seq.mp h)).of_ok hq
    exact absurd he ((ihb hready.2 hyields).ne_error e)
  case case8 a b q hq q₂ hq₂ iha ihb =>
    have hyields := (iha hready.1 (yields_seq.mp h)).of_ok hq
    exact ⟨_, rfl, (ihb hready.2 hyields).of_ok hq₂⟩
  case case9 he => cases he.symm.trans (checkStart_ok h)
  case case10 e he => exact absurd he ((hready.2.finds p _ (yields_option.mp h).symm).ne_error e)
  case case11 hc => exact ⟨_, rfl, (hready.2.finds p _ (yields_option.mp h).symm).of_ok hc⟩
  case case12 hc e he ih =>
    have hyields := (hready.2.finds p _ (yields_option.mp h).symm).of_ok hc
    exact absurd he ((ih hready.1 hyields).ne_error e)
  case case13 hc q hq ih =>
    have hyields := (hready.2.finds p _ (yields_option.mp h).symm).of_ok hc
    exact ⟨_, rfl, (ih hready.1 hyields).of_ok hq⟩
  case case14 he => cases he.symm.trans (checkStart_ok h)
  case case15 e he => exact absurd he ((hready.2.2.finds p _ (yields_many.mp h).symm).ne_error e)
  case case16 hc => exact ⟨_, rfl, (hready.2.2.finds p _ (yields_many.mp h).symm).of_ok hc⟩
  case case17 hc e he ih =>
    have hyields := (hready.2.2.finds p _ (yields_many.mp h).symm).of_ok hc
    exact absurd he ((ih hready.2.1 hyields).ne_error e)
  case case18 hc q hq e he ih =>
    have hyields := (hready.2.2.finds p _ (yields_many.mp h).symm).of_ok hc
    cases he.symm.trans (checkAgain_ok ((ih hready.2.1 hyields).of_ok hq))
  case case19 hc q hq _ _ _ e he iha ihm =>
    have hyields := (hready.2.2.finds p _ (yields_many.mp h).symm).of_ok hc
    exact absurd he ((ihm hready ((iha hready.2.1 hyields).of_ok hq)).ne_error e)
  case case20 hc q hq _ _ _ q₂ hq₂ iha ihm =>
    have hyields := (hready.2.2.finds p _ (yields_many.mp h).symm).of_ok hc
    exact ⟨_, rfl, (ihm hready ((iha hready.2.1 hyields).of_ok hq)).of_ok hq₂⟩
  case case21 q hq _ _ hidle ih => exact absurd (q.rest_lt hready.1) hidle
  case case22 he => cases he.symm.trans (checkStart_ok h)
  case case23 e he => exact absurd he ((hready.2.2.finds p _ (yields_either.mp h)).ne_error e)
  case case24 hc e he ih =>
    have hyields := (hready.2.2.finds p _ (yields_either.mp h)).of_ok hc
    exact absurd he ((ih hready.1 hyields).ne_error e)
  case case25 hc q hq ih =>
    have hyields := (hready.2.2.finds p _ (yields_either.mp h)).of_ok hc
    exact ⟨_, rfl, (ih hready.1 hyields).of_ok hq⟩
  case case26 hc e he ih =>
    have hyields := (hready.2.2.finds p _ (yields_either.mp h)).of_ok hc
    exact absurd he ((ih hready.2.1 hyields).ne_error e)
  case case27 hc q hq ih =>
    have hyields := (hready.2.2.finds p _ (yields_either.mp h)).of_ok hc
    exact ⟨_, rfl, (ih hready.2.1 hyields).of_ok hq⟩

end Reader

end CompiScript
