import CompiScript.Proofs.Effects.Takes

namespace CompiScript

open Syntax

def Step.isOperation : Step → Bool
  | aim _ => true
  | weigh _ => true
  | assign _ => true
  | _ => false

namespace Syntax

theorem Assignment.isOperation_of_mem {a : Assignment} {s : Step} (hs : s ∈ a.steps) : s.isOperation = true := by
  induction a with
  | assign object target value ih =>
    simp only [steps, List.cons_append, List.mem_cons, List.mem_append, List.not_mem_nil, or_false] at hs
    rcases hs with rfl | hvalue | rfl
    · rfl
    · exact ih hvalue
    · rfl
  | operation e =>
    rw [List.mem_singleton.mp hs]
    rfl

theorem Expression.isOperation_of_mem {e : Expression} {s : Step} (hs : s ∈ e.steps) : s.isOperation = true := by
  cases e with
  | assignment a => exact a.isOperation_of_mem hs
  | function parts =>
    rw [List.mem_singleton.mp hs]
    rfl

end Syntax

namespace Step

def isPlain : Step → Bool
  | enter _ => false
  | exit => false
  | bind _ _ => false
  | declare .function _ => false
  | _ => true

theorem isPlain_of_isOperation {s : Step} (hs : s.isOperation = true) : s.isPlain = true := by
  cases s <;> first | rfl | cases hs

end Step

namespace Syntax

theorem Expression.isPlain_of_mem {e : Expression} {s : Step} (hs : s ∈ e.steps) : s.isPlain = true :=
  Step.isPlain_of_isOperation (e.isOperation_of_mem hs)

theorem VarDecl.isPlain_of_mem {v : VarDecl} {s : Step} (hs : s ∈ v.steps) : s.isPlain = true := by
  obtain ⟨name, value⟩ := v
  cases value with
  | none =>
    rw [List.mem_singleton.mp hs]
    rfl
  | some e =>
    simp only [steps, List.cons_append, List.mem_cons, List.mem_append, List.not_mem_nil, or_false] at hs
    rcases hs with rfl | hvalue | rfl
    · rfl
    · exact e.isPlain_of_mem hvalue
    · rfl

theorem headSteps_isPlain {es : List Expression} {s : Step} (hs : s ∈ headSteps es) : s.isPlain = true := by
  match es with
  | [] => cases hs
  | [c] =>
    rcases List.mem_append.mp hs with hc | hrequire
    · exact c.isPlain_of_mem hc
    · rw [List.mem_singleton.mp hrequire]
      rfl
  | c :: u :: _ =>
    rcases List.mem_append.mp hs with hc | hrest
    · exact c.isPlain_of_mem hc
    · rcases List.mem_cons.mp hrest with rfl | hu
      · rfl
      · exact u.isPlain_of_mem hu

theorem ForHead.isPlain_of_mem {h : ForHead} {s : Step} (hs : s ∈ h.steps) : s.isPlain = true := by
  obtain ⟨init, condition, update⟩ := h
  rcases List.mem_append.mp hs with hinit | hrest
  · cases init with
    | «variable» v => exact v.isPlain_of_mem hinit
    | expression e => exact e.isPlain_of_mem hinit
    | nothing => cases hinit
  · exact headSteps_isPlain hrest

theorem returnSteps_isPlain {owner : Option String} {value : Option Expression} {s : Step}
    (hs : s ∈ returnSteps owner value) : s.isPlain = true := by
  cases value with
  | none =>
    rw [List.mem_singleton.mp hs]
    rfl
  | some e =>
    rcases List.mem_append.mp hs with he | hback
    · exact e.isPlain_of_mem he
    · rw [List.mem_singleton.mp hback]
      rfl

end Syntax

namespace Sketch

def size (k : Sketch) : Nat :=
  Outline.sizes (k.current :: k.outer)

theorem size_extend (k : Sketch) (more : List (String × Category)) : (k.extend more []).size = k.size := by
  obtain ⟨⟨name, level, keys, children⟩, outer, depth⟩ := k
  simp [extend, size, Outline.extend, Outline.sizes, Outline.size]

theorem size_exit (k : Sketch) : k.exit.size = k.size := by
  obtain ⟨current, outer, depth⟩ := k
  cases outer with
  | nil => rfl
  | cons o os =>
    obtain ⟨name, level, keys, children⟩ := o
    simp only [exit, size, Outline.extend, Outline.sizes, Outline.size, Outline.sizes_append]
    omega

theorem opened_exit {k : Sketch} {n : Nat} (h : n ∈ k.exit.opened) : n ∈ k.opened := by
  obtain ⟨current, outer, depth⟩ := k
  cases outer with
  | nil => exact h
  | cons o os => exact .tail _ h

def Left (k : Sketch) (n : Nat) : Prop :=
  n < k.size ∧ n ∉ k.opened

end Sketch

theorem Step.size_le (s : Step) (k : Sketch) : k.size ≤ (s.sketch k).size := by
  cases s with
  | enter scope =>
    have hsize : (k.enter scope).size = 1 + k.size := rfl
    rw [Step.sketch, hsize]
    omega
  | exit => exact Nat.le_of_eq k.size_exit.symm
  | declare what x => exact Nat.le_of_eq (k.size_extend _).symm
  | _ => exact Nat.le_refl _

theorem Step.sketch_left {k : Sketch} {n : Nat} (s : Step) (h : k.Left n) : (s.sketch k).Left n := by
  obtain ⟨hlt, hleft⟩ := h
  refine ⟨Nat.lt_of_lt_of_le hlt (s.size_le k), ?_⟩
  cases s with
  | enter scope =>
    intro hopen
    rcases List.mem_cons.mp hopen with rfl | hmem
    · exact Nat.lt_irrefl _ hlt
    · exact hleft hmem
  | exit => exact fun hopen => hleft (Sketch.opened_exit hopen)
  | _ => exact hleft

theorem execute_left {steps : List Step} {g g' : Stage} (h : execute steps g = (none, g')) {n : Nat}
    (hn : g.scopes.sketch.Left n) : g'.scopes.sketch.Left n := by
  refine execute_induction (P := fun g => g.scopes.sketch.Left n) ?_ h hn
  intro s g g' hs hleft
  rw [s.run_sketch hs]
  exact s.sketch_left hleft

namespace Scopes

theorem length_tables (s : Scopes) : s.tables.length = s.sketch.size := by
  rw [tables_eq, length_chainTables]
  rfl

theorem home?_exit {s : Scopes} {x : String} {c : Category} {n : Nat} (h : s.home? x c = some n)
    (hopen : n ∈ s.exit.sketch.opened) : s.exit.home? x c = some n := by
  obtain ⟨current, outer, depth⟩ := s
  cases outer with
  | nil => exact h
  | cons f fs =>
    rw [home?, chain, homeIn] at h
    by_cases hcurrent : (current.table.find? x (some c)).isSome = true
    · -- The scope that is left has a greater number than the open ones.
      rw [if_pos hcurrent, length_chainTables] at h
      have hlt : n < Outline.sizes ((f :: fs).map Frame.outline) := Outline.numbers_lt hopen
      cases h
      exact absurd hlt (Nat.lt_irrefl _)
    · rw [if_neg hcurrent] at h
      exact h

theorem home?_declared_other {s : Scopes} {what : Declared} {y : String} (hnew : s.current.table.lookup y = none)
    (hfree : s.find? y (some what.category) = none) {x : String} {c : Category} (hc : c ≠ .objects) {n : Nat}
    (h : s.home? x c = some n) : (s.declared what y).home? x c = some n := by
  have hsame : ((s.current.table.put y (Symbol.ofEntity y what.entity)).find? x (some c)).isSome =
      (s.current.table.find? x (some c)).isSome := by
    rw [Table.find?_put]
    by_cases hx : x = y
    · subst hx
      have hbelongs : (Symbol.ofEntity x what.entity).entity.belongs c = false := by
        apply Bool.eq_false_iff.mpr
        intro hbelongs
        have hcategory : what.category = c := by
          have hnarrow := (Entity.belongs_iff _ hc).mp hbelongs
          rw [← hnarrow]
          cases what <;> rfl
        -- Of the same category the name is not found, but then it is at home nowhere.
        rw [hcategory] at hfree
        rw [home?, homeIn_eq_none hfree] at h
        cases h
      simp [hbelongs, Table.find?, hnew]
    · rw [if_neg hx]
  rw [home?, chain, homeIn] at h ⊢
  simp only [declared, hsame]
  exact h

end Scopes

theorem Step.run_home {s : Step} {g g' : Stage} (h : s.run g = .ok g') {x : String} {c : Category} (hc : c ≠ .objects)
    {n : Nat} (hhome : g.scopes.home? x c = some n) (hopen : n ∈ g'.scopes.sketch.opened) :
    g'.scopes.home? x c = some n := by
  cases s with
  | enter scope =>
    cases h
    exact hhome
  | exit =>
    cases h
    exact Scopes.home?_exit hhome hopen
  | declare what y =>
    cases run_takes h with
    | declare hfree hnew => exact Scopes.home?_declared_other hnew hfree hc hhome
  | _ =>
    rw [Scopes.home?_congr (run_sketch h) x hc]
    exact hhome

theorem execute_home {steps : List Step} {g g' : Stage} (h : execute steps g = (none, g')) {x : String} {c : Category}
    (hc : c ≠ .objects) {n : Nat} (hhome : g.scopes.home? x c = some n) (hopen : n ∈ g'.scopes.sketch.opened) :
    g'.scopes.home? x c = some n := by
  induction steps generalizing g with
  | nil =>
    cases h
    exact hhome
  | cons s steps ih =>
    obtain ⟨g₁, hs, hrest⟩ := execute_cons_ok h
    apply ih hrest
    apply Step.run_home hs hc hhome
    -- Were the scope left by the first step, it would not be open at the end.
    apply Decidable.not_not.mp
    intro hleft
    have hsize : n < g₁.scopes.sketch.size := by
      have hlt := Scopes.home?_lt hhome
      rw [Scopes.length_tables] at hlt
      rw [s.run_sketch hs]
      exact Nat.lt_of_lt_of_le hlt (s.size_le _)
    exact (execute_left hrest ⟨hsize, hleft⟩).2 hopen

end CompiScript
