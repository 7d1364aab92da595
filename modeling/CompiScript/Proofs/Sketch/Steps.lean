import CompiScript.Proofs.Steps

/-!
What remains of the scopes when all types are left out: the names of the scopes, their levels, and
the names declared in them with what they stand for. How a step changes this sketch is said by the
step alone, so a run without an error leaves a sketch that is known beforehand.
-/

namespace CompiScript

def Entity.narrowest : Entity → Category
  | .variable _ => .variables
  | .function _ _ => .functions
  | .classType _ _ _ => .classes
  | .bare _ => .objects
  | .category _ => .objects

theorem Entity.belongs_iff (e : Entity) {c : Category} (hc : c ≠ .objects) :
    e.belongs c = true ↔ e.narrowest = c := by
  cases e <;> cases c <;> simp_all [belongs, narrowest]

inductive Outline where
  | mk (name : String) (level : Nat) (keys : List (String × Category)) (children : List Outline)

namespace Outline

def keys : Outline → List (String × Category)
  | mk _ _ keys _ => keys

def extend : Outline → List (String × Category) → List Outline → Outline
  | mk name level keys children, more, inner => mk name level (keys ++ more) (children ++ inner)

end Outline

def Table.keys (t : Table) : List (String × Category) :=
  t.map fun e => (e.1, e.2.entity.narrowest)

mutual

def Scope.outline : Scope → Outline
  | .mk name level table children => .mk name level table.keys (Scope.outlines children)

def Scope.outlines : List Scope → List Outline
  | [] => []
  | s :: ss => s.outline :: Scope.outlines ss

end

def Frame.outline (f : Frame) : Outline :=
  .mk f.name f.level f.table.keys (Scope.outlines f.closed)

structure Sketch where
  current : Outline
  outer : List Outline
  depth : Nat

def Scopes.sketch (s : Scopes) : Sketch :=
  ⟨s.current.outline, s.outer.map Frame.outline, s.depth⟩

namespace Sketch

def start : Sketch :=
  ⟨.mk "global" 0 [] [], [], 0⟩

def enter (name : String) (k : Sketch) : Sketch :=
  ⟨.mk name (k.depth + 1) [] [], k.current :: k.outer, k.depth + 1⟩

def exit (k : Sketch) : Sketch :=
  match k.outer with
  | [] => k
  | o :: os => ⟨o.extend [] [k.current], os, k.depth - 1⟩

def extend (k : Sketch) (more : List (String × Category)) (inner : List Outline) : Sketch :=
  { k with current := k.current.extend more inner }

def Has (k : Sketch) (x : String) (c : Category) : Prop :=
  ∃ o ∈ k.current :: k.outer, (x, c) ∈ o.keys

end Sketch

def Step.sketch : Step → Sketch → Sketch
  | enter scope, k => k.enter scope
  | exit, k => k.exit
  | declare what name, k => k.extend [(name, what.category)] []
  | _, k => k

def sketchAll : List Step → Sketch → Sketch
  | [], k => k
  | s :: steps, k => sketchAll steps (s.sketch k)

theorem sketchAll_append (before after : List Step) (k : Sketch) :
    sketchAll (before ++ after) k = sketchAll after (sketchAll before k) := by
  induction before generalizing k with
  | nil => rfl
  | cons s before ih => exact ih (s.sketch k)

namespace Table

theorem keys_lookup (t : Table) (x : String) :
    t.keys.lookup x = (t.lookup x).map fun s => s.entity.narrowest := by
  induction t with
  | nil => rfl
  | cons e t ih =>
    obtain ⟨n, s⟩ := e
    simp only [keys, List.map_cons, List.lookup_cons] at ih ⊢
    cases x == n
    · exact ih
    · rfl

theorem keys_put_of_lookup_none {t : Table} {x : String} (s : Symbol) (h : t.lookup x = none) :
    (t.put x s).keys = t.keys ++ [(x, s.entity.narrowest)] := by
  induction t with
  | nil => rfl
  | cons e t ih =>
    obtain ⟨n, old⟩ := e
    simp only [List.lookup_cons] at h
    split at h
    · cases h
    · next hne =>
      have hn : n ≠ x := by
        rintro rfl
        simp at hne
      simp only [put, if_neg hn]
      simpa [keys] using ih h

theorem keys_put_of_lookup_some {t : Table} {x : String} {s old : Symbol} (h : t.lookup x = some old)
    (hs : s.entity.narrowest = old.entity.narrowest) : (t.put x s).keys = t.keys := by
  induction t with
  | nil => cases h
  | cons e t ih =>
    obtain ⟨n, first⟩ := e
    simp only [List.lookup_cons] at h
    by_cases hn : n = x
    · subst hn
      simp only [beq_self_eq_true, Option.some.injEq] at h
      subst h
      simp [put, keys, hs]
    · have hne : (x == n) = false := by
        simpa using fun h => hn h.symm
      simp only [hne] at h
      simp only [put, if_neg hn]
      simpa [keys] using ih h

theorem find?_eq_some {t : Table} {x : String} {c : Category} {s : Symbol}
    (h : t.find? x (some c) = some s) : t.lookup x = some s ∧ s.entity.belongs c = true := by
  simp only [find?] at h
  split at h
  · cases h
  · next old hl =>
    split at h
    · next hb => cases h; exact ⟨hl, hb⟩
    · cases h

theorem lookup_put (t : Table) (x y : String) (s : Symbol) :
    (t.put x s).lookup y = if y = x then some s else t.lookup y := by
  have hcons : ∀ (n : String) (old : Symbol) (rest : Table),
      List.lookup y ((n, old) :: rest) = if y = n then some old else rest.lookup y := by
    intro n old rest
    rw [List.lookup_cons]
    by_cases hy : y = n
    · simp [hy]
    · simp only [beq_eq_false_iff_ne.mpr hy, if_neg hy]
  induction t with
  | nil => exact hcons x s []
  | cons e t ih =>
    obtain ⟨n, old⟩ := e
    rw [put]
    by_cases hn : n = x
    · rw [if_pos hn, hcons, hcons, hn]
      by_cases hy : y = x
      · rw [if_pos hy, if_pos hy]
      · rw [if_neg hy, if_neg hy, if_neg hy]
    · rw [if_neg hn, hcons, hcons, ih]
      by_cases hy : y = n
      · rw [if_pos hy, if_pos hy, if_neg (fun h => hn (hy.symm.trans h))]
      · rw [if_neg hy, if_neg hy]

theorem find?_put (t : Table) (x y : String) (s : Symbol) (c : Category) :
    (t.put x s).find? y (some c) =
      if y = x then if s.entity.belongs c then some s else none else t.find? y (some c) := by
  rw [find?, lookup_put]
  by_cases hy : y = x
  · simp only [if_pos hy]
  · simp only [if_neg hy, find?]

end Table

theorem changeIn_outline {change : Symbol → Symbol} {c : Category}
    (hchange : ∀ s, s.entity.belongs c = true → (change s).entity.narrowest = s.entity.narrowest)
    (x : String) (fs : List Frame) :
    (changeIn x c change fs).map Frame.outline = fs.map Frame.outline := by
  induction fs with
  | nil => rfl
  | cons f fs ih =>
    simp only [changeIn]
    split
    · next s h =>
      obtain ⟨hl, hb⟩ := Table.find?_eq_some h
      have hkeys := Table.keys_put_of_lookup_some hl (hchange s hb)
      simp [Frame.outline, hkeys]
    · simp [ih]

namespace Scopes

theorem withChain_sketch (s : Scopes) {fs : List Frame}
    (h : fs.map Frame.outline = s.chain.map Frame.outline) : (s.withChain fs).sketch = s.sketch := by
  cases fs with
  | nil => rfl
  | cons f fs =>
    simp only [chain, List.map_cons, List.cons.injEq] at h
    simp [withChain, sketch, h]

theorem setType_sketch (s : Scopes) (x : String) (t : Option Ty) : (s.setType x t).sketch = s.sketch := by
  refine s.withChain_sketch (changeIn_outline (fun x hx => ?_) x s.chain)
  exact ((x.entity.belongs_iff (by decide)).mp hx).symm

theorem setReturns_sketch (s : Scopes) (x : String) (t : Option Ty) :
    (s.setReturns x t).sketch = s.sketch := by
  have hchange : ∀ f : Symbol, f.entity.belongs .functions = true →
      (f.setReturns t).entity.narrowest = f.entity.narrowest := fun _ _ => rfl
  exact s.withChain_sketch (changeIn_outline hchange x s.chain)

theorem setParams_sketch (s : Scopes) (x : String) (keys : List String) :
    (s.setParams x keys).sketch = s.sketch := by
  have hchange : ∀ f : Symbol, f.entity.belongs .functions = true →
      (f.setParams keys).entity.narrowest = f.entity.narrowest := fun _ _ => rfl
  exact s.withChain_sketch (changeIn_outline hchange x s.chain)

theorem exit_sketch (s : Scopes) : s.exit.sketch = s.sketch.exit := by
  have houtlines : ∀ ss t, Scope.outlines (ss ++ [t]) = Scope.outlines ss ++ [t.outline] := by
    intro ss t
    induction ss with
    | nil => rfl
    | cons s ss ih => simp [Scope.outlines, ih]
  obtain ⟨current, outer, depth⟩ := s
  cases outer with
  | nil => rfl
  | cons f fs =>
    simp [exit, sketch, Sketch.exit, Frame.outline, Outline.extend, houtlines, Frame.close,
      Scope.outline]

def declared (s : Scopes) (what : Declared) (x : String) : Scopes :=
  { s with current :=
    { s.current with table := s.current.table.put x (Symbol.ofEntity x what.entity) } }

theorem declared_sketch {s : Scopes} {what : Declared} {x : String}
    (h : s.current.table.lookup x = none) :
    (s.declared what x).sketch = s.sketch.extend [(x, what.category)] [] := by
  have hkeys := Table.keys_put_of_lookup_none (Symbol.ofEntity x what.entity) h
  have hnarrow : (Symbol.ofEntity x what.entity).entity.narrowest = what.category := by
    cases what <;> rfl
  rw [hnarrow] at hkeys
  simp [declared, sketch, Sketch.extend, Frame.outline, Outline.extend, hkeys]

end Scopes

theorem takenIn_eq (fs : List Frame) (x : String) (what : Declared) :
    takenIn fs x what.entity = (findIn fs x (some what.category)).isSome := by
  induction fs with
  | nil => rfl
  | cons f fs ih =>
    simp only [takenIn, findIn, Table.find?, ih]
    cases f.table.lookup x with
    | none => rfl
    | some s =>
      have hlike : s.entity.isLike what.entity = s.entity.belongs what.category := by
        cases what <;> rfl
      simp only [hlike]
      cases s.entity.belongs what.category <;> rfl

theorem Step.declareIn_eq (g : Stage) (what : Declared) (x : String) :
    declareIn g what x =
      if (g.scopes.find? x (some what.category)).isSome then .error (.alreadyDeclared what x)
      else if (g.scopes.current.table.lookup x).isSome then .error (.symbol .taken)
      else .ok { g with scopes := g.scopes.declared what x } := by
  simp only [declareIn]
  by_cases hfound : (g.scopes.find? x (some what.category)).isSome = true
  · simp only [if_pos hfound]
  · have htaken : takenIn (g.scopes.current :: g.scopes.outer) x what.entity = false := by
      rw [takenIn_eq]
      exact Bool.eq_false_iff.mpr hfound
    have hadd : g.scopes.add (Symbol.ofEntity x what.entity) =
        (g.scopes.current.table.add (Symbol.ofEntity x what.entity)).map fun table =>
          { g.scopes with current := { g.scopes.current with table := table } } := by
      simp only [Scopes.add, Frame.add, Symbol.ofEntity, htaken]
      cases Table.add g.scopes.current.table ⟨x, what.entity, what.entity.notes⟩ <;> rfl
    rw [if_neg hfound, if_neg hfound, hadd]
    simp only [Table.add, Symbol.ofEntity]
    cases hl : g.scopes.current.table.lookup x with
    | none => rfl
    | some old => cases what <;> rfl

theorem Step.run_declare_ok {what : Declared} {x : String} {g g' : Stage}
    (h : (declare what x).run g = .ok g') :
    g.scopes.current.table.lookup x = none ∧ g' = { g with scopes := g.scopes.declared what x } := by
  rw [run, declareIn_eq] at h
  split at h
  · cases h
  · split at h
    · cases h
    · next hfree =>
      cases h
      exact ⟨Option.not_isSome_iff_eq_none.mp hfree, rfl⟩

theorem Step.run_sketch {s : Step} {g g' : Stage} (h : s.run g = .ok g') :
    g'.scopes.sketch = s.sketch g.scopes.sketch := by
  cases s with
  | enter scope => cases h; rfl
  | exit => cases h; exact g.scopes.exit_sketch
  | declare what name =>
    obtain ⟨hfree, rfl⟩ := run_declare_ok h
    exact Scopes.declared_sketch hfree
  -- From here on only types change.
  | bind function keys => cases h; exact g.scopes.setParams_sketch function keys
  | unbind => cases h; rfl
  | beginPrint => cases h; rfl
  | endPrint => cases h; rfl
  | aim target =>
    simp only [run] at h
    split at h
    · cases h
    · cases h; rfl
  | weigh e =>
    simp only [run] at h
    cases ht : e.type g.toStanding with
    | error err => rw [ht] at h; cases h
    | ok t => rw [ht] at h; cases h; rfl
  | assign target =>
    simp only [run, assignIn] at h
    split at h
    · cases h; exact g.scopes.setType_sketch target g.type
    · split at h
      · cases h
      · cases h; rfl
  | initialise name => cases h; exact g.scopes.setType_sketch name g.type
  | require place =>
    simp only [run] at h
    cases hc : Operand.checkBoolean g.type place with
    | error err => rw [hc] at h; cases h
    | ok u => rw [hc] at h; cases h; rfl
  | giveBack owner bare =>
    cases bare with
    | true =>
      simp only [run] at h
      split at h
      · cases h
      · cases h; rfl
    | false =>
      simp only [run] at h
      split at h
      · cases h; rfl
      · cases owner with
        | none => cases h
        | some name =>
          simp only [returnIn] at h
          split at h
          · cases h; exact g.scopes.setReturns_sketch name g.type
          · split at h
            · cases h
            · cases h; rfl

theorem execute_sketch {steps : List Step} {g g' : Stage} (h : execute steps g = (none, g')) :
    g'.scopes.sketch = sketchAll steps g.scopes.sketch := by
  induction steps generalizing g with
  | nil => cases h; rfl
  | cons s steps ih =>
    obtain ⟨g₁, hs, hrest⟩ := execute_cons_ok h
    rw [ih hrest, s.run_sketch hs, sketchAll]

end CompiScript
