import CompiScript.Proofs.Sketch.Steps

/-!
Scopes by number. The tables of all scopes, left or still open, form one list in the order in which
the scopes were entered; a scope keeps its place in that list for good, so a number and a name stand
for the same entry throughout an analysis.
-/

namespace CompiScript

section Modify

variable {α : Type}

theorem modify_append_cons {before : List α} {n : Nat} (hn : before.length = n) (a : α) (after : List α)
    (f : α → α) : (before ++ a :: after).modify n f = before ++ f a :: after := by
  subst hn
  induction before with
  | nil => rfl
  | cons b before ih => simp [ih]

theorem modify_append_of_lt {before : List α} {n : Nat} (hn : n < before.length) (after : List α)
    (f : α → α) : (before ++ after).modify n f = before.modify n f ++ after := by
  induction before generalizing n with
  | nil => cases hn
  | cons b before ih =>
    cases n with
    | zero => rfl
    | succ n => simp [ih (Nat.lt_of_succ_lt_succ hn)]

end Modify

mutual

def Scope.tables : Scope → List Table
  | .mk _ _ table children => table :: Scope.tablesAll children

def Scope.tablesAll : List Scope → List Table
  | [] => []
  | s :: ss => s.tables ++ Scope.tablesAll ss

end

theorem Scope.tablesAll_append (ss ts : List Scope) :
    Scope.tablesAll (ss ++ ts) = Scope.tablesAll ss ++ Scope.tablesAll ts := by
  induction ss with
  | nil => rfl
  | cons s ss ih => simp [tablesAll, ih]

def chainTables : List Frame → List Table
  | [] => []
  | f :: outer => chainTables outer ++ f.table :: Scope.tablesAll f.closed

theorem closeAll_tables {t t' : Scope} {outer : List Frame}
    (h : Scopes.closeAll (some t) outer = some t') : t'.tables = chainTables outer ++ t.tables := by
  induction outer generalizing t with
  | nil => cases h; rfl
  | cons f fs ih =>
    rw [ih h]
    simp [Frame.close, Scope.tables, Scope.tablesAll_append, Scope.tablesAll, chainTables]

theorem closeAll_isSome (t : Scope) (outer : List Frame) :
    ∃ t', Scopes.closeAll (some t) outer = some t' := by
  induction outer generalizing t with
  | nil => exact ⟨t, rfl⟩
  | cons f fs ih => exact ih _

namespace Scopes

theorem tree_eq {s : Scopes} {t : Scope} (h : closeAll (some (s.current.close none)) s.outer = some t) :
    s.tree = t := by
  rw [tree, h]

def tables (s : Scopes) : List Table :=
  s.tree.tables

theorem tables_eq (s : Scopes) : s.tables = chainTables s.chain := by
  obtain ⟨t, ht⟩ := closeAll_isSome (s.current.close none) s.outer
  rw [tables, tree_eq ht, closeAll_tables ht]
  simp [chain, chainTables, Frame.close, Scope.tables]

theorem tables_enter (s : Scopes) (name : String) : (s.enter name).tables = s.tables ++ [[]] := by
  rw [tables_eq, tables_eq]
  rfl

theorem tree_exit (s : Scopes) : s.exit.tree = s.tree := by
  obtain ⟨current, outer, depth⟩ := s
  cases outer with
  | nil => rfl
  | cons f fs =>
    obtain ⟨t, ht⟩ := closeAll_isSome (f.close (some (current.close none))) fs
    have hexit : (exit ⟨current, f :: fs, depth⟩).tree = t :=
      tree_eq (by rw [← ht]; simp [exit, Frame.close])
    rw [hexit]
    exact (tree_eq ht).symm

theorem tables_exit (s : Scopes) : s.exit.tables = s.tables := by
  rw [tables, tree_exit, tables]

theorem tables_withChain (s : Scopes) (f : Frame) (fs : List Frame) :
    (s.withChain (f :: fs)).tables = chainTables (f :: fs) := by
  rw [tables_eq]
  rfl

end Scopes

mutual

def Outline.size : Outline → Nat
  | .mk _ _ _ children => Outline.sizes children + 1

def Outline.sizes : List Outline → Nat
  | [] => 0
  | o :: os => o.size + Outline.sizes os

end

theorem Outline.sizes_append (os ps : List Outline) : Outline.sizes (os ++ ps) = Outline.sizes os + Outline.sizes ps := by
  induction os with
  | nil => simp [sizes]
  | cons o os ih =>
    simp only [List.cons_append, sizes, ih]
    omega

mutual

theorem Scope.length_tables : ∀ s : Scope, s.tables.length = s.outline.size
  | .mk _ _ _ children => by
    rw [Scope.tables, List.length_cons, Scope.length_tablesAll children, Scope.outline, Outline.size]

theorem Scope.length_tablesAll : ∀ ss : List Scope,
    (Scope.tablesAll ss).length = Outline.sizes (Scope.outlines ss)
  | [] => rfl
  | s :: ss => by
    rw [Scope.tablesAll, List.length_append, s.length_tables, Scope.length_tablesAll ss, Scope.outlines,
      Outline.sizes]

end

theorem length_chainTables (fs : List Frame) :
    (chainTables fs).length = Outline.sizes (fs.map Frame.outline) := by
  induction fs with
  | nil => rfl
  | cons f fs ih =>
    simp only [chainTables, List.length_append, List.length_cons, ih, Scope.length_tablesAll, List.map_cons,
      Outline.sizes, Frame.outline, Outline.size]
    omega

def Outline.numbers : List Outline → List Nat
  | [] => []
  | _ :: outer => Outline.sizes outer :: Outline.numbers outer

theorem Outline.numbers_lt {os : List Outline} {n : Nat} (h : n ∈ Outline.numbers os) :
    n < Outline.sizes os := by
  induction os with
  | nil => cases h
  | cons o os ih =>
    have hsize : 0 < o.size := by
      cases o
      exact Nat.succ_pos _
    rw [Outline.sizes]
    rcases List.mem_cons.mp h with rfl | hmem
    · omega
    · have := ih hmem
      omega

namespace Sketch

def here (k : Sketch) : Nat :=
  Outline.sizes k.outer

def opened (k : Sketch) : List Nat :=
  Outline.numbers (k.current :: k.outer)

end Sketch

/-- The number of the first scope on a chain that has the name for something of the category. -/
def homeIn : List Frame → String → Category → Option Nat
  | [], _, _ => none
  | f :: outer, x, c =>
    if (f.table.find? x (some c)).isSome then some (chainTables outer).length else homeIn outer x c

def Scopes.home? (s : Scopes) (x : String) (c : Category) : Option Nat :=
  homeIn s.chain x c

theorem homeIn_lt {fs : List Frame} {x : String} {c : Category} {n : Nat} (h : homeIn fs x c = some n) :
    n < (chainTables fs).length := by
  induction fs with
  | nil => cases h
  | cons f fs ih =>
    simp only [chainTables, List.length_append, List.length_cons]
    rw [homeIn] at h
    split at h
    · cases h
      omega
    · have := ih h
      omega

theorem homeIn_mem {fs : List Frame} {x : String} {c : Category} {n : Nat} (h : homeIn fs x c = some n) :
    n ∈ Outline.numbers (fs.map Frame.outline) := by
  induction fs with
  | nil => cases h
  | cons f fs ih =>
    rw [homeIn] at h
    split at h
    · cases h
      rw [length_chainTables]
      exact .head _
    · exact .tail _ (ih h)

theorem findIn_home {fs : List Frame} {x : String} {c : Category} {s : Symbol}
    (h : findIn fs x (some c) = some s) :
    ∃ n t, homeIn fs x c = some n ∧ (chainTables fs)[n]? = some t ∧ t.find? x (some c) = some s := by
  induction fs with
  | nil => cases h
  | cons f fs ih =>
    simp only [findIn] at h
    cases hf : f.table.find? x (some c) with
    | some s' =>
      rw [hf] at h
      cases h
      refine ⟨(chainTables fs).length, f.table, ?_, ?_, hf⟩
      · rw [homeIn, hf]
        rfl
      · simp [chainTables]
    | none =>
      rw [hf] at h
      obtain ⟨n, t, hn, ht, hs⟩ := ih h
      refine ⟨n, t, ?_, ?_, hs⟩
      · rw [homeIn, hf]
        exact hn
      · rw [chainTables, List.getElem?_append_left (homeIn_lt hn)]
        exact ht

theorem homeIn_eq_none {fs : List Frame} {x : String} {c : Category} (h : findIn fs x (some c) = none) :
    homeIn fs x c = none := by
  induction fs with
  | nil => rfl
  | cons f fs ih =>
    simp only [findIn] at h
    cases hf : f.table.find? x (some c) with
    | some s => rw [hf] at h; cases h
    | none =>
      rw [hf] at h
      rw [homeIn, hf]
      exact ih h

theorem findIn_isSome_of_number {fs : List Frame} {x : String} {c : Category} {n : Nat} {t : Table} {s : Symbol}
    (hn : n ∈ Outline.numbers (fs.map Frame.outline)) (ht : (chainTables fs)[n]? = some t)
    (hs : t.find? x (some c) = some s) : (findIn fs x (some c)).isSome = true := by
  induction fs with
  | nil => cases hn
  | cons f fs ih =>
    simp only [findIn]
    cases hf : f.table.find? x (some c) with
    | some s' => rfl
    | none =>
      simp only [List.map_cons, Outline.numbers, ← length_chainTables] at hn
      rcases List.mem_cons.mp hn with rfl | hmem
      · simp only [chainTables, List.getElem?_append_right (Nat.le_refl _), Nat.sub_self, List.getElem?_cons_zero,
          Option.some.injEq] at ht
        rw [ht, hs] at hf
        cases hf
      · refine ih hmem ?_
        have hlt : n < (chainTables fs).length := by
          rw [length_chainTables]
          exact Outline.numbers_lt hmem
        rwa [chainTables, List.getElem?_append_left hlt] at ht

section Change

variable {β : Type} {φ : Table → β} {ψ : β → β} {x : String} {c : Category} {change : Symbol → Symbol}

theorem map_changeIn (hφ : ∀ t s, Table.find? t x (some c) = some s → φ (t.put x (change s)) = ψ (φ t))
    (fs : List Frame) :
    (chainTables (changeIn x c change fs)).map φ =
      match homeIn fs x c with
      | none => (chainTables fs).map φ
      | some n => ((chainTables fs).map φ).modify n ψ := by
  induction fs with
  | nil => rfl
  | cons f fs ih =>
    simp only [changeIn, homeIn]
    cases hf : f.table.find? x (some c) with
    | some s =>
      simp only [chainTables, List.map_append, List.map_cons, hφ _ _ hf, Option.isSome_some, if_true]
      rw [modify_append_cons (List.length_map φ)]
    | none =>
      simp only [chainTables, List.map_append, List.map_cons, ih, Option.isSome_none, Bool.false_eq_true,
        if_false]
      cases hn : homeIn fs x c with
      | none => rfl
      | some n =>
        have hlt : n < ((chainTables fs).map φ).length := by
          rw [List.length_map]
          exact homeIn_lt hn
        exact (modify_append_of_lt hlt _ ψ).symm

theorem length_changeIn (fs : List Frame) : (changeIn x c change fs).length = fs.length := by
  induction fs with
  | nil => rfl
  | cons f fs ih =>
    rw [changeIn]
    split
    · rfl
    · rw [List.length_cons, ih, List.length_cons]

theorem map_tables_changeIn (hφ : ∀ t s, Table.find? t x (some c) = some s → φ (t.put x (change s)) = ψ (φ t))
    (s : Scopes) :
    (s.withChain (changeIn x c change s.chain)).tables.map φ =
      match s.home? x c with
      | none => s.tables.map φ
      | some n => (s.tables.map φ).modify n ψ := by
  rw [s.tables_eq, Scopes.home?, ← map_changeIn hφ]
  cases hchain : changeIn x c change s.chain with
  | nil =>
    have hlength : (changeIn x c change s.chain).length = s.chain.length := length_changeIn s.chain
    rw [hchain] at hlength
    cases hlength
  | cons f fs => rw [Scopes.tables_withChain]

end Change

end CompiScript
