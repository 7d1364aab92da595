import CompiScript.Proofs.Foresight.Completion

/-!
What may follow what. The grammar passes a check in the way of the sets of first and following tokens: where a
part can be left out, repeated or chosen, one token tells whether it is there, given what may follow. Only an
`else` can belong to several statements; then the phrases that it may begin stand in front of all others.
-/

namespace CompiScript

open Phrase

def within (F G : Kind → Bool) : Bool :=
  Kind.all.all fun k => !F k || G k

def apart (F G : Kind → Bool) : Bool :=
  Kind.all.all fun k => !(F k && G k)

theorem within_iff {F G : Kind → Bool} : within F G = true ↔ ∀ k, F k = true → G k = true := by
  simp only [within, List.all_eq_true, Kind.mem_all, forall_const, Bool.or_eq_true, Bool.not_eq_true']
  exact forall_congr' fun k => by cases F k <;> simp

theorem apart_iff {F G : Kind → Bool} : apart F G = true ↔ ∀ k, F k = true → G k = false := by
  simp only [apart, List.all_eq_true, Kind.mem_all, forall_const, Bool.not_eq_true', Bool.and_eq_false_iff]
  exact forall_congr' fun k => by cases F k <;> simp

theorem apart_mono {F G H : Kind → Bool} (h : ∀ k, F k = true → G k = true) (hapart : apart H G = true) :
    apart H F = true := by
  refine apart_iff.mpr fun k hk => ?_
  have hG := apart_iff.mp hapart k hk
  cases hF : F k with
  | false => rfl
  | true => rw [h k hF] at hG; cases hG

namespace Rule

def trailing : List Kind :=
  [.slash, .star, .percent, .minus, .plus, .greater, .greaterEqual, .less, .lessEqual, .notEqual, .equalEqual,
    .andWord, .orWord, .semicolon, .closeParen, .comma, .closeBracket]

/-- What may follow a rule. Rules that end with a token of their own can stand in front of anything, and so
can statements. -/
def follow (r : Rule) (k : Kind) : Bool :=
  match r with
  | parameters => k = .closeParen
  | arguments => k = .closeParen
  | expression => (trailing.drop 13).contains k
  | assignment => (trailing.drop 13).contains k
  | logicOr => (trailing.drop 13).contains k
  | logicAnd => (trailing.drop 12).contains k
  | equality => (trailing.drop 11).contains k
  | comparison => (trailing.drop 9).contains k
  | term => (trailing.drop 5).contains k
  | factor => (trailing.drop 3).contains k
  | unary => trailing.contains k
  | call => trailing.contains k
  | _ => true

end Rule

namespace Phrase

def front (p : Phrase) (F : Kind → Bool) (k : Kind) : Bool :=
  p.starts k || (p.nullable && F k)

def loose (F : Kind → Bool) (p : Phrase) : Bool :=
  p == option .nearestIf elsePart ||
    !p.starts .elseWord && !p.isElsePart && !(p.nullable && F .elseWord)

def fits (F : Kind → Bool) : Phrase → Bool
  | nothing => true
  | token _ => true
  | oneOf _ => true
  | rule r => within F r.follow
  | seq a b => a.fits (b.front F) && b.fits F && b.loose F
  | option _ a => a.fits F && !a.nullable && (a == elsePart || apart a.starts F)
  | many c a => a.fits ((many c a).front F) && !a.nullable && apart a.starts F && (many c a).loose F
  | either _ a b => a.fits F && b.fits F && !a.nullable && !b.nullable && apart a.starts b.starts

variable {F G : Kind → Bool} {p : Phrase}

theorem front_mono (h : ∀ k, F k = true → G k = true) (k : Kind) (hk : p.front F k = true) :
    p.front G k = true := by
  simp only [front, Bool.or_eq_true, Bool.and_eq_true] at hk ⊢
  exact hk.imp_right (And.imp_right (h k))

theorem loose_mono (h : ∀ k, F k = true → G k = true) (hp : p.loose G = true) : p.loose F = true := by
  have helse := h .elseWord
  simp only [loose, Bool.or_eq_true, Bool.and_eq_true, Bool.not_eq_true', Bool.and_eq_false_iff] at hp ⊢
  cases hF : F .elseWord <;> grind

theorem fits_mono (h : ∀ k, F k = true → G k = true) (hp : p.fits G = true) : p.fits F = true := by
  induction p generalizing F G with
  | nothing => rfl
  | token k => rfl
  | oneOf ks => rfl
  | rule r =>
    have hfollow := within_iff.mp hp
    exact within_iff.mpr fun k hk => hfollow k (h k hk)
  | seq a b iha ihb =>
    simp only [fits, Bool.and_eq_true] at hp ⊢
    exact ⟨⟨iha (front_mono h) hp.1.1, ihb h hp.1.2⟩, loose_mono h hp.2⟩
  | option c a ih =>
    simp only [fits, Bool.and_eq_true, Bool.or_eq_true] at hp ⊢
    exact ⟨⟨ih h hp.1.1, hp.1.2⟩, hp.2.imp_right (apart_mono h)⟩
  | many c a ih =>
    simp only [fits, Bool.and_eq_true] at hp ⊢
    exact ⟨⟨⟨ih (front_mono h) hp.1.1.1, hp.1.1.2⟩, apart_mono h hp.1.2⟩, loose_mono h hp.2⟩
  | either c a b iha ihb =>
    simp only [fits, Bool.and_eq_true] at hp ⊢
    exact ⟨⟨⟨⟨iha h hp.1.1.1.1, ihb h hp.1.1.1.2⟩, hp.1.1.2⟩, hp.1.2⟩, hp.2⟩

def frontAll (ps : List Phrase) (F : Kind → Bool) (k : Kind) : Bool :=
  canStart ps k || (canEnd ps && F k)

theorem canStart_cons {ps : List Phrase} : canStart (p :: ps) = p.front (canStart ps) :=
  rfl

theorem frontAll_nil : frontAll [] F = F := by
  funext k
  simp [frontAll, canStart, canEnd]

theorem frontAll_cons {ps : List Phrase} : frontAll (p :: ps) F = p.front (frontAll ps F) := by
  funext k
  simp only [frontAll, front, canStart, canEnd, List.all_cons]
  cases p.nullable <;> simp [Bool.or_assoc]

theorem frontAll_append {ps qs : List Phrase} : frontAll (ps ++ qs) F = frontAll ps (frontAll qs F) := by
  induction ps with
  | nil => rw [List.nil_append, frontAll_nil]
  | cons p ps ih => rw [List.cons_append, frontAll_cons, frontAll_cons, ih]

theorem canStart_append {ps qs : List Phrase} : canStart (ps ++ qs) = frontAll ps (canStart qs) := by
  induction ps with
  | nil => rw [List.nil_append, frontAll_nil]
  | cons p ps ih => rw [List.cons_append, frontAll_cons, canStart_cons, ih]

theorem frontAll_mono (h : ∀ k, F k = true → G k = true) {ps : List Phrase} (k : Kind)
    (hk : frontAll ps F k = true) : frontAll ps G k = true := by
  simp only [frontAll, Bool.or_eq_true, Bool.and_eq_true] at hk ⊢
  exact hk.imp_right (And.imp_right (h k))

end Phrase

def Rule.subtle (r : Rule) : Bool :=
  r = .declaration || r = .expression || r = .assignment

theorem Rule.fits_phrase {r : Rule} (h : r.subtle = false) : r.phrase.fits r.follow = true := by
  have hall : (all.all fun r => r.subtle || r.phrase.fits r.follow) = true := by
    decide +kernel
  have hr := List.all_eq_true.mp hall r r.mem_all
  rwa [h, Bool.false_or] at hr

section Dangling

def Dangling (D : List Phrase) : Prop :=
  ∃ (m : Nat) (Y : List Phrase), D = List.replicate m (option .nearestIf elsePart) ++ Y ∧
    canStart Y .elseWord = false ∧ openIfs Y = 0

variable {p : Phrase} {D : List Phrase} {w : List Kind}

theorem Dangling.nil : Dangling [] :=
  ⟨0, [], rfl, rfl, rfl⟩

theorem Dangling.of_canStart (h : Dangling D) (helse : canStart D .elseWord = false) : openIfs D = 0 := by
  obtain ⟨m, Y, rfl, -, hopen⟩ := h
  cases m with
  | zero => exact hopen
  | succ m =>
    rw [List.replicate_succ, List.cons_append] at helse
    cases helse

theorem Dangling.cons (h : Dangling D) (hp : p.loose (canStart D) = true) : Dangling (p :: D) := by
  simp only [loose, Bool.or_eq_true, Bool.and_eq_true, Bool.not_eq_true', beq_iff_eq] at hp
  rcases hp with rfl | ⟨⟨hstarts, hpart⟩, hnullable⟩
  · obtain ⟨m, Y, rfl, hY⟩ := h
    exact ⟨m + 1, Y, rfl, hY⟩
  · refine ⟨0, p :: D, rfl, ?_, ?_⟩
    · simp [canStart, hstarts, hnullable]
    · cases hn : p.nullable with
      | false => simp [openIfs, hn]
      | true =>
        rw [hn, Bool.true_and] at hnullable
        simp [openIfs, hn, hpart, h.of_canStart hnullable]

theorem Dangling.swap (h : Dangling D) (hw : Yields D (.elseWord :: w)) :
    Yields (elsePart :: D) (.elseWord :: w) := by
  obtain ⟨m, Y, rfl, helse, -⟩ := h
  induction m with
  | zero =>
    rw [List.replicate_zero, List.nil_append] at hw
    rw [hw.canStart_all] at helse
    cases helse
  | succ m ih =>
    rw [List.replicate_succ, List.cons_append] at hw ⊢
    have hinsert : ∀ v, Yields (List.replicate m (option .nearestIf elsePart) ++ Y) v →
        Yields (option .nearestIf elsePart :: (List.replicate m (option .nearestIf elsePart) ++ Y)) v :=
      fun v hv => yields_option.mpr (.inl hv)
    rcases yields_option.mp hw with hw | hw
    · exact (ih hw).mono [elsePart] hinsert
    · exact hw.mono [elsePart] hinsert

end Dangling

namespace Ahead

variable {F G : Kind → Bool} {k : Kind}

def fits (F : Kind → Bool) : Ahead → Bool
  | phrase p => p.fits F
  | declared => true
  | _ => within F Rule.assignment.follow

def fitsAll (F : Kind → Bool) : List Ahead → Bool
  | [] => true
  | a :: rest =>
    a.fits (frontAll (rest.map content) F) && a.content.loose (frontAll (rest.map content) F) && fitsAll F rest

theorem fits_mono (h : ∀ k, F k = true → G k = true) {a : Ahead} (ha : a.fits G = true) : a.fits F = true := by
  have hwithin : within G Rule.assignment.follow = true → within F Rule.assignment.follow = true :=
    fun hG => within_iff.mpr fun k hk => within_iff.mp hG k (h k hk)
  cases a with
  | phrase p => exact Phrase.fits_mono h ha
  | declared => rfl
  | target => exact hwithin ha
  | operand => exact hwithin ha
  | function => exact hwithin ha

theorem fitsAll_mono (h : ∀ k, F k = true → G k = true) {stack : List Ahead}
    (hstack : fitsAll G stack = true) : fitsAll F stack = true := by
  induction stack with
  | nil => rfl
  | cons a rest ih =>
    simp only [fitsAll, Bool.and_eq_true] at hstack ⊢
    exact ⟨⟨fits_mono (frontAll_mono h) hstack.1.1, loose_mono (frontAll_mono h) hstack.1.2⟩, ih hstack.2⟩

theorem fitsAll_append {stack more : List Ahead} :
    fitsAll F (stack ++ more) = (fitsAll (frontAll (more.map content) F) stack && fitsAll F more) := by
  induction stack with
  | nil => rfl
  | cons a rest ih =>
    simp only [List.cons_append, fitsAll, ih, List.map_append, frontAll_append, Bool.and_assoc]

theorem fitsAll_concat {stack : List Ahead} {a : Ahead} (ha : a.fits F = true)
    (hloose : a.content.loose F = true) (hstack : fitsAll (a.content.front F) stack = true) :
    fitsAll F (stack ++ [a]) = true := by
  rw [fitsAll_append, Bool.and_eq_true]
  simp only [List.map_cons, List.map_nil, frontAll_cons, frontAll_nil, fitsAll, Bool.and_eq_true]
  exact ⟨hstack, ⟨ha, hloose⟩, trivial⟩

theorem readPhrase_fits {readRule : Rule → Kind → Option (List Ahead)}
    (hrule : ∀ r left, readRule r k = some left → fitsAll r.follow left = true) {p : Phrase}
    (hp : p.fits F = true) {left : List Ahead} (h : readPhrase readRule p k = some left) :
    fitsAll F left = true := by
  induction p generalizing F left with
  | nothing => cases h
  | token t =>
    simp only [readPhrase, Option.ite_none_right_eq_some, Option.some.injEq] at h
    rw [← h.2]
    rfl
  | oneOf ts =>
    simp only [readPhrase, Option.ite_none_right_eq_some, Option.some.injEq] at h
    rw [← h.2]
    rfl
  | rule r => exact fitsAll_mono (within_iff.mp hp) (hrule r left h)
  | seq a b iha ihb =>
    simp only [Phrase.fits, Bool.and_eq_true] at hp
    simp only [readPhrase] at h
    split at h
    · next left' ha =>
      cases h
      exact fitsAll_concat hp.1.2 hp.2 (iha hp.1.1 ha)
    · split at h
      · exact ihb hp.1.2 h
      · cases h
  | option c a ih =>
    simp only [Phrase.fits, Bool.and_eq_true] at hp
    exact ih hp.1.1 h
  | many c a ih =>
    obtain ⟨left', ha, rfl⟩ := Option.map_eq_some_iff.mp h
    have hmany := hp
    simp only [Phrase.fits, Bool.and_eq_true] at hp
    exact fitsAll_concat hmany hp.2 (ih hp.1.1.1 ha)
  | either c a b iha ihb =>
    simp only [Phrase.fits, Bool.and_eq_true] at hp
    simp only [readPhrase] at h
    split at h
    · next left' ha =>
      cases h
      exact iha hp.1.1.1.1 ha
    · exact ihb hp.1.1.1.2 h

theorem readPhrase_either {readRule : Rule → Kind → Option (List Ahead)} {c : Choice} {a b : Phrase}
    {left : List Ahead} (h : readPhrase readRule (.either c a b) k = some left) :
    readPhrase readRule a k = some left ∨ readPhrase readRule b k = some left := by
  simp only [readPhrase] at h
  split at h
  · next left' ha =>
    cases h
    exact .inl ha
  · exact .inr h

theorem readRule_fits {n : Nat} {r : Rule} {left : List Ahead} (h : readRule n r k = some left) :
    fitsAll r.follow left = true := by
  induction n generalizing r k left with
  | zero => cases h
  | succ n ih =>
    have hphrase : ∀ {r : Rule} {k : Kind} {left : List Ahead}, r.subtle = false →
        readPhrase (readRule n) r.phrase k = some left → fitsAll r.follow left = true :=
      fun hr => readPhrase_fits (fun _ _ => ih) (Rule.fits_phrase hr)
    rcases readRule_cases h with ⟨rfl, -, rfl⟩ | ⟨rfl, -, rfl⟩ | ⟨rfl, inner, hinner, rfl⟩ |
      ⟨rfl, inner, hinner, rfl⟩ | ⟨rfl, hleft⟩ | ⟨hne, hleft⟩
    · decide
    · decide
    · refine fitsAll_concat rfl rfl (fitsAll_mono ?_ (hphrase rfl hinner))
      exact fun _ _ => rfl
    · refine fitsAll_concat rfl rfl (fitsAll_mono ?_ (hphrase rfl hinner))
      exact fun _ _ => rfl
    · exact hphrase (r := .logicOr) rfl hleft
    · cases hr : r.subtle with
      | false => exact hphrase hr hleft
      | true =>
        -- What is left of a choice between rules is left of one of them.
        have hcases : r = .declaration ∨ r = .expression := by
          simpa [Rule.subtle, hne] using hr
        rcases hcases with rfl | rfl
        · rcases readPhrase_either hleft with hleft | hleft
          · exact ih (r := .classDecl) hleft
          rcases readPhrase_either hleft with hleft | hleft
          · exact ih (r := .funDecl) hleft
          rcases readPhrase_either hleft with hleft | hleft
          · exact ih (r := .varDecl) hleft
          · exact ih (r := .statement) hleft
        · rcases readPhrase_either hleft with hleft | hleft
          · exact ih (r := .assignment) hleft
          · exact fitsAll_mono (fun _ _ => rfl) (ih (r := .funAnon) hleft)

theorem read_fits {a : Ahead} (ha : a.fits F = true) {left : List Ahead} (h : a.read k = some left) :
    fitsAll F left = true := by
  -- The places are followed by what may follow an assignment; a declaration can be followed by anything.
  have hplaces : ([target, operand, function].all fun a => Kind.all.all fun k =>
      fitsAll Rule.assignment.follow ((a.read k).getD [])) = true := by
    decide +kernel
  have hdeclared : (Kind.all.all fun k =>
      fitsAll (fun _ => true) ((declared.read k).getD [])) = true := by
    decide +kernel
  have hplace : a ∈ [target, operand, function] → fitsAll Rule.assignment.follow left = true := by
    intro hmem
    have hk := List.all_eq_true.mp (List.all_eq_true.mp hplaces a hmem) k k.mem_all
    rwa [h] at hk
  cases a with
  | phrase p => exact readPhrase_fits (fun _ _ => readRule_fits) ha h
  | declared =>
    have hk := List.all_eq_true.mp hdeclared k k.mem_all
    rw [h] at hk
    exact fitsAll_mono (fun _ _ => rfl) hk
  | target => exact fitsAll_mono (within_iff.mp ha) (hplace (by simp))
  | operand => exact fitsAll_mono (within_iff.mp ha) (hplace (by simp))
  | function => exact fitsAll_mono (within_iff.mp ha) (hplace (by simp))

theorem step_fits {stack left : List Ahead} (hstack : fitsAll F stack = true) (h : step stack k = some left) :
    fitsAll F left = true := by
  induction stack with
  | nil => cases h
  | cons a rest ih =>
    simp only [fitsAll, Bool.and_eq_true] at hstack
    simp only [step] at h
    split at h
    · next inner hread =>
      cases h
      rw [fitsAll_append, Bool.and_eq_true]
      exact ⟨read_fits hstack.1.1 hread, hstack.2⟩
    · split at h
      · exact ih hstack.2 h
      · cases h

end Ahead

end CompiScript
