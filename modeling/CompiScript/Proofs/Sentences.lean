import CompiScript.Proofs.Productions

/-!
What phrases give, as kinds of tokens, and what a list of phrases gives that have to be read one after the
other. Which kinds can begin a phrase and whether it can be empty is told rightly by the tests of the
reader, and every phrase of the grammar gives something.
-/

namespace CompiScript

inductive Gives : Phrase → List Kind → Prop
  | nothing : Gives .nothing []
  | token (k : Kind) : Gives (.token k) [k]
  | oneOf {ks : List Kind} {k : Kind} (h : k ∈ ks) : Gives (.oneOf ks) [k]
  | rule {r : Rule} {u : List Kind} (h : Gives r.phrase u) : Gives (.rule r) u
  | seq {a b : Phrase} {u v : List Kind} (ha : Gives a u) (hb : Gives b v) : Gives (.seq a b) (u ++ v)
  | none {c : Choice} {a : Phrase} : Gives (.option c a) []
  | some {c : Choice} {a : Phrase} {u : List Kind} (h : Gives a u) : Gives (.option c a) u
  | nil {c : Choice} {a : Phrase} : Gives (.many c a) []
  | cons {c : Choice} {a : Phrase} {u v : List Kind} (ha : Gives a u) (hm : Gives (.many c a) v) :
      Gives (.many c a) (u ++ v)
  | left {c : Choice} {a b : Phrase} {u : List Kind} (h : Gives a u) : Gives (.either c a b) u
  | right {c : Choice} {a b : Phrase} {u : List Kind} (h : Gives b u) : Gives (.either c a b) u

def Yields : List Phrase → List Kind → Prop
  | [], w => w = []
  | p :: ps, w => ∃ u v, w = u ++ v ∧ Gives p u ∧ Yields ps v

section Sentence

def Tree.kinds (ts : List Tree) : List Kind :=
  (Tree.leavesAll ts).map Lexeme.kind

theorem Gives.exists_derives {p : Phrase} {u : List Kind} (h : Gives p u) :
    ∃ ts, Derives p.form ts ∧ Tree.kinds ts = u := by
  induction h with
  | nothing => exact ⟨[], .empty, rfl⟩
  | token k => exact ⟨[.leaf ⟨k, ""⟩], .token rfl, rfl⟩
  | @oneOf ks k h => exact ⟨[.leaf ⟨k, ""⟩], .oneOf h, rfl⟩
  | @rule r u h ih =>
    obtain ⟨ts, hts, hu⟩ := ih
    rw [r.form_phrase] at hts
    exact ⟨[.node r ts], .rule hts, by simpa [Tree.kinds, Tree.leavesAll, Tree.leaves] using hu⟩
  | seq ha hb iha ihb =>
    obtain ⟨xs, hx, rfl⟩ := iha
    obtain ⟨ys, hy, rfl⟩ := ihb
    exact ⟨xs ++ ys, .seq hx hy, by simp [Tree.kinds, Tree.leavesAll_append]⟩
  | none => exact ⟨[], .none, rfl⟩
  | some h ih =>
    obtain ⟨ts, hts, hu⟩ := ih
    exact ⟨ts, .some hts, hu⟩
  | nil => exact ⟨[], .nil, rfl⟩
  | cons ha hm iha ihm =>
    obtain ⟨xs, hx, rfl⟩ := iha
    obtain ⟨ys, hy, rfl⟩ := ihm
    exact ⟨xs ++ ys, .cons hx hy, by simp [Tree.kinds, Tree.leavesAll_append]⟩
  | left h ih =>
    obtain ⟨ts, hts, hu⟩ := ih
    exact ⟨ts, .left hts, hu⟩
  | right h ih =>
    obtain ⟨ts, hts, hu⟩ := ih
    exact ⟨ts, .right hts, hu⟩

theorem Derives.gives {f : Form} {ts : List Tree} (h : Derives f ts) {p : Phrase} (hp : p.form = f) :
    Gives p (Tree.kinds ts) := by
  induction h generalizing p with
  | empty =>
    cases p <;> cases hp
    exact .nothing
  | @token k x hk =>
    cases p <;> cases hp
    subst hk
    exact .token _
  | @oneOf ks x hk =>
    cases p <;> cases hp
    exact .oneOf hk
  | @rule r cs h ih =>
    cases p <;> cases hp
    have hcs := ih r.form_phrase
    exact .rule (by simpa [Tree.kinds, Tree.leavesAll, Tree.leaves] using hcs)
  | seq hf hg ihf ihg =>
    cases p <;> cases hp
    rw [Tree.kinds, Tree.leavesAll_append, List.map_append]
    exact .seq (ihf rfl) (ihg rfl)
  | none =>
    cases p <;> cases hp
    exact .none
  | some h ih =>
    cases p <;> cases hp
    exact .some (ih rfl)
  | nil =>
    cases p <;> cases hp
    exact .nil
  | cons hf hm ihf ihm =>
    cases p <;> cases hp
    rw [Tree.kinds, Tree.leavesAll_append, List.map_append]
    exact .cons (ihf rfl) (ihm rfl)
  | left h ih =>
    cases p <;> cases hp
    exact .left (ih rfl)
  | right h ih =>
    cases p <;> cases hp
    exact .right (ih rfl)

theorem Rule.sentence_iff {r : Rule} {w : List Kind} : r.Sentence w ↔ Gives (.rule r) w := by
  constructor
  · rintro ⟨t, ht, rfl⟩
    have hgives := Derives.gives ht (p := .rule r) rfl
    simpa [Tree.kinds, Tree.leavesAll] using hgives
  · intro h
    obtain ⟨ts, hts, rfl⟩ := h.exists_derives
    cases hts with
    | rule hcs => exact ⟨_, .rule hcs, by simp [Tree.kinds, Tree.leavesAll]⟩

end Sentence

section Lists

variable {p a b : Phrase} {ps qs : List Phrase} {c : Choice} {k : Kind} {r : Rule} {w : List Kind}

theorem Gives.yields {u v : List Kind} (hp : Gives p u) (h : Yields ps v) : Yields (p :: ps) (u ++ v) :=
  ⟨u, v, rfl, hp, h⟩

theorem yields_single : Yields [p] w ↔ Gives p w := by
  constructor
  · rintro ⟨u, v, rfl, hp, rfl⟩
    rwa [List.append_nil]
  · intro h
    exact ⟨w, [], (List.append_nil w).symm, h, rfl⟩

theorem yields_append : Yields (ps ++ qs) w ↔ ∃ u v, w = u ++ v ∧ Yields ps u ∧ Yields qs v := by
  induction ps generalizing w with
  | nil =>
    constructor
    · intro h
      exact ⟨[], w, rfl, rfl, h⟩
    · rintro ⟨u, v, rfl, rfl, h⟩
      exact h
  | cons p ps ih =>
    constructor
    · rintro ⟨u, v, rfl, hp, h⟩
      obtain ⟨v₁, v₂, rfl, hps, hqs⟩ := ih.mp h
      exact ⟨u ++ v₁, v₂, (List.append_assoc ..).symm, ⟨u, v₁, rfl, hp, hps⟩, hqs⟩
    · rintro ⟨_, v₂, rfl, ⟨u, v₁, rfl, hp, hps⟩, hqs⟩
      exact ⟨u, v₁ ++ v₂, List.append_assoc .., hp, ih.mpr ⟨v₁, v₂, rfl, hps, hqs⟩⟩

theorem yields_nothing : Yields (.nothing :: ps) w ↔ Yields ps w := by
  constructor
  · rintro ⟨u, v, rfl, hp, h⟩
    cases hp
    exact h
  · exact Gives.yields .nothing

theorem yields_token : Yields (.token k :: ps) w ↔ ∃ v, w = k :: v ∧ Yields ps v := by
  constructor
  · rintro ⟨u, v, rfl, hp, h⟩
    cases hp
    exact ⟨v, rfl, h⟩
  · rintro ⟨v, rfl, h⟩
    exact (Gives.token k).yields h

theorem yields_oneOf {ks : List Kind} :
    Yields (.oneOf ks :: ps) w ↔ ∃ k v, k ∈ ks ∧ w = k :: v ∧ Yields ps v := by
  constructor
  · rintro ⟨u, v, rfl, hp, h⟩
    cases hp with
    | oneOf hk => exact ⟨_, v, hk, rfl, h⟩
  · rintro ⟨k, v, hk, rfl, h⟩
    exact (Gives.oneOf hk).yields h

theorem yields_rule : Yields (.rule r :: ps) w ↔ Yields (r.phrase :: ps) w := by
  constructor
  · rintro ⟨u, v, rfl, hp, h⟩
    cases hp with
    | rule hp => exact hp.yields h
  · rintro ⟨u, v, rfl, hp, h⟩
    exact (Gives.rule hp).yields h

theorem yields_seq : Yields (.seq a b :: ps) w ↔ Yields (a :: b :: ps) w := by
  constructor
  · rintro ⟨_, v, rfl, hp, h⟩
    cases hp with
    | seq ha hb =>
      rw [List.append_assoc]
      exact ha.yields (hb.yields h)
  · rintro ⟨u₁, _, rfl, ha, u₂, v, rfl, hb, h⟩
    rw [← List.append_assoc]
    exact (Gives.seq ha hb).yields h

theorem yields_option : Yields (.option c a :: ps) w ↔ Yields ps w ∨ Yields (a :: ps) w := by
  constructor
  · rintro ⟨u, v, rfl, hp, h⟩
    cases hp with
    | none => exact .inl h
    | some ha => exact .inr (ha.yields h)
  · rintro (h | ⟨u, v, rfl, ha, h⟩)
    · exact Gives.none.yields h
    · exact (Gives.some ha).yields h

theorem yields_many :
    Yields (.many c a :: ps) w ↔ Yields ps w ∨ Yields (a :: .many c a :: ps) w := by
  constructor
  · rintro ⟨_, v, rfl, hp, h⟩
    cases hp with
    | nil => exact .inl h
    | cons ha hm =>
      rw [List.append_assoc]
      exact .inr (ha.yields (hm.yields h))
  · rintro (h | ⟨u₁, _, rfl, ha, u₂, v, rfl, hm, h⟩)
    · exact Gives.nil.yields h
    · rw [← List.append_assoc]
      exact (Gives.cons ha hm).yields h

theorem yields_either : Yields (.either c a b :: ps) w ↔ Yields (a :: ps) w ∨ Yields (b :: ps) w := by
  constructor
  · rintro ⟨u, v, rfl, hp, h⟩
    cases hp with
    | left ha => exact .inl (ha.yields h)
    | right hb => exact .inr (hb.yields h)
  · rintro (⟨u, v, rfl, ha, h⟩ | ⟨u, v, rfl, hb, h⟩)
    · exact (Gives.left ha).yields h
    · exact (Gives.right hb).yields h

end Lists

namespace Rule

theorem nullable_phrase (r : Rule) : r.phrase.nullable = false := by
  cases r <;> rfl

theorem eq_of_all {α : Type} [DecidableEq α] {f g : Rule → Kind → α}
    (h : (all.all fun r => Kind.all.all fun k => f r k == g r k) = true) : f = g := by
  funext r k
  exact eq_of_beq (List.all_eq_true.mp (List.all_eq_true.mp h r r.mem_all) k k.mem_all)

theorem starts_phrase (r : Rule) (k : Kind) : r.phrase.starts k = r.starts k := by
  have hstarts : (fun r : Rule => r.phrase.starts) = starts := eq_of_all (by decide +kernel)
  exact congrFun (congrFun hstarts r) k

end Rule

section Starts

variable {p : Phrase} {ps qs : List Phrase} {k : Kind} {w : List Kind}

theorem gives_nil_iff : Gives p [] ↔ p.nullable = true := by
  constructor
  · intro h
    generalize hu : ([] : List Kind) = u at h
    induction h with
    | nothing => rfl
    | token k => cases hu
    | oneOf h => cases hu
    | @rule r u h ih =>
      rw [r.nullable_phrase] at ih
      cases ih hu
    | seq ha hb iha ihb =>
      obtain ⟨rfl, rfl⟩ := List.append_eq_nil_iff.mp hu.symm
      simp [Phrase.nullable, iha rfl, ihb rfl]
    | none => rfl
    | some h ih => rfl
    | nil => rfl
    | cons ha hm iha ihm => rfl
    | left h ih => simp [Phrase.nullable, ih hu]
    | right h ih => simp [Phrase.nullable, ih hu]
  · intro h
    induction p with
    | nothing => exact .nothing
    | token k => cases h
    | oneOf ks => cases h
    | rule r => cases h
    | seq a b iha ihb =>
      simp only [Phrase.nullable, Bool.and_eq_true] at h
      exact .seq (iha h.1) (ihb h.2)
    | option c a ih => exact .none
    | many c a ih => exact .nil
    | either c a b iha ihb =>
      simp only [Phrase.nullable, Bool.or_eq_true] at h
      rcases h with h | h
      · exact .left (iha h)
      · exact .right (ihb h)

theorem Gives.starts (h : Gives p (k :: w)) : p.starts k = true := by
  generalize hu : k :: w = u at h
  induction h generalizing w with
  | nothing => cases hu
  | token k =>
    cases hu
    simp [Phrase.starts, Phrase.startsWith]
  | oneOf h =>
    cases hu
    simpa [Phrase.starts, Phrase.startsWith] using h
  | @rule r u h ih =>
    rw [← ih hu, r.starts_phrase]
    rfl
  | @seq a b u v ha hb iha ihb =>
    simp only [Phrase.starts, Phrase.startsWith, Bool.or_eq_true, Bool.and_eq_true] at iha ihb ⊢
    cases u with
    | nil => exact .inr ⟨gives_nil_iff.mp ha, ihb hu⟩
    | cons l u =>
      cases hu
      exact .inl (iha rfl)
  | none => cases hu
  | some h ih => exact ih hu
  | nil => cases hu
  | @cons c a u v ha hm iha ihm =>
    cases u with
    | nil => exact ihm hu
    | cons l u =>
      cases hu
      exact iha rfl
  | left h ih =>
    simp only [Phrase.starts, Phrase.startsWith, Bool.or_eq_true] at ih ⊢
    exact .inl (ih hu)
  | right h ih =>
    simp only [Phrase.starts, Phrase.startsWith, Bool.or_eq_true] at ih ⊢
    exact .inr (ih hu)

theorem Yields.canStart (h : Yields (ps ++ qs) (k :: w)) :
    Phrase.canStart ps k = true ∨ Phrase.canEnd ps = true ∧ Yields qs (k :: w) := by
  induction ps with
  | nil => exact .inr ⟨rfl, h⟩
  | cons p ps ih =>
    obtain ⟨u, v, hw, hp, hps⟩ := h
    simp only [Phrase.canStart, Phrase.canEnd, List.all_cons, Bool.or_eq_true, Bool.and_eq_true] at ih ⊢
    cases u with
    | nil =>
      have hnullable := gives_nil_iff.mp hp
      rw [List.nil_append] at hw
      rw [← hw] at hps
      rcases ih hps with hstart | ⟨hend, hqs⟩
      · exact .inl (.inr ⟨hnullable, hstart⟩)
      · exact .inr ⟨⟨hnullable, hend⟩, hqs⟩
    | cons l u =>
      cases hw
      exact .inl (.inl hp.starts)

theorem Yields.canStart_all (h : Yields ps (k :: w)) : Phrase.canStart ps k = true := by
  rw [← List.append_nil ps] at h
  rcases h.canStart with hstart | ⟨-, hnil⟩
  · exact hstart
  · cases hnil

theorem yields_of_canEnd (hps : Phrase.canEnd ps = true) (h : Yields qs w) : Yields (ps ++ qs) w := by
  induction ps with
  | nil => exact h
  | cons p ps ih =>
    simp only [Phrase.canEnd, List.all_cons, Bool.and_eq_true] at hps
    exact (gives_nil_iff.mpr hps.1).yields (ih hps.2)

end Starts

section Samples

def Phrase.sample (samples : Rule → Option (List Kind)) : Phrase → Option (List Kind)
  | nothing => some []
  | token k => some [k]
  | oneOf ks => ks.head?.map ([·])
  | rule r => samples r
  | seq a b => (a.sample samples).bind fun u => (b.sample samples).map fun v => u ++ v
  | option _ _ => some []
  | many _ _ => some []
  | either _ _ b => b.sample samples

def Rule.sample : Nat → Rule → Option (List Kind)
  | 0, _ => none
  | n + 1, r => r.phrase.sample (sample n)

theorem Phrase.sample_gives {samples : Rule → Option (List Kind)}
    (hrule : ∀ r u, samples r = some u → Gives (.rule r) u) {p : Phrase} {u : List Kind}
    (h : p.sample samples = some u) : Gives p u := by
  induction p generalizing u with
  | nothing =>
    cases h
    exact .nothing
  | token k =>
    cases h
    exact .token k
  | oneOf ks =>
    obtain ⟨k, hk, rfl⟩ := Option.map_eq_some_iff.mp h
    exact .oneOf (List.mem_of_head? hk)
  | rule r => exact hrule r u h
  | seq a b iha ihb =>
    obtain ⟨u₁, ha, hrest⟩ := Option.bind_eq_some_iff.mp h
    obtain ⟨u₂, hb, rfl⟩ := Option.map_eq_some_iff.mp hrest
    exact .seq (iha ha) (ihb hb)
  | option c a ih =>
    cases h
    exact .none
  | many c a ih =>
    cases h
    exact .nil
  | either c a b iha ihb => exact .right (ihb h)

theorem Rule.sample_gives {n : Nat} {r : Rule} {u : List Kind} (h : r.sample n = some u) :
    Gives (.rule r) u := by
  induction n generalizing r u with
  | zero => cases h
  | succ n ih => exact .rule (Phrase.sample_gives (fun _ _ => ih) h)

theorem Rule.exists_gives (r : Rule) : ∃ u, Gives (.rule r) u := by
  have hsome : (r.sample depth).isSome = true := by
    cases r <;> rfl
  obtain ⟨u, hu⟩ := Option.isSome_iff_exists.mp hsome
  exact ⟨u, sample_gives hu⟩

end Samples

end CompiScript
