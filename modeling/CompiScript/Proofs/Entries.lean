import CompiScript.Proofs.Numbering
import CompiScript.Proofs.Sketch.Distinct

/-!
What the tables say of types. Of each scope, by number, only the types of its variables and the return
types of its functions are looked at. How a step changes these is said once here: it writes one entry,
the one at home of the name it speaks of, or none.
-/

namespace CompiScript

abbrev Notes (α : Type) := String → Option α

def Notes.write {α : Type} (v : Notes α) (x : String) (a : α) : Notes α :=
  fun y => if y = x then some a else v y

def Table.types (t : Table) : Notes (Option Ty) :=
  fun x => (t.find? x (some .variables)).map Symbol.type?

def Table.returns (t : Table) : Notes (Option Ty) :=
  fun x => (t.find? x (some .functions)).map Symbol.returns?

namespace Table

theorem find?_eq_none_of_other {t : Table} {x : String} {s : Symbol} {c d : Category} (hc : c ≠ .objects)
    (hd : d ≠ .objects) (hcd : c ≠ d) (h : t.find? x (some c) = some s) : t.find? x (some d) = none := by
  obtain ⟨hlookup, hbelongs⟩ := find?_eq_some h
  have hother : s.entity.belongs d = false := by
    apply Bool.eq_false_iff.mpr
    intro hother
    exact hcd (((s.entity.belongs_iff hc).mp hbelongs).symm.trans ((s.entity.belongs_iff hd).mp hother))
  simp [find?, hlookup, hother]

theorem types_put (t : Table) (x y : String) (s : Symbol) :
    (t.put x s).types y =
      if y = x then if s.entity.belongs .variables then some s.type? else none else t.types y := by
  simp only [types, find?_put]
  split
  · split <;> rfl
  · rfl

theorem returns_put (t : Table) (x y : String) (s : Symbol) :
    (t.put x s).returns y =
      if y = x then if s.entity.belongs .functions then some s.returns? else none else t.returns y := by
  simp only [returns, find?_put]
  split
  · split <;> rfl
  · rfl

theorem types_setType (t : Table) (x : String) (s : Symbol) (type : Option Ty) :
    (t.put x (s.setType type)).types = t.types.write x type := by
  funext y
  rw [types_put]
  rfl

theorem returns_setReturns {t : Table} {x : String} {s : Symbol} (h : t.find? x (some .functions) = some s)
    (type : Option Ty) : (t.put x (s.setReturns type)).returns = t.returns.write x type := by
  have hs : (s.setReturns type).entity.belongs .functions = true := (find?_eq_some h).2
  funext y
  rw [returns_put, if_pos hs]
  rfl

theorem types_put_function {t : Table} {x : String} {s s' : Symbol} (h : t.find? x (some .functions) = some s)
    (hs : s'.entity = s.entity) : (t.put x s').types = t.types := by
  have hnone : t.find? x (some .variables) = none :=
    find?_eq_none_of_other (by decide) (by decide) (by decide) h
  have hother : s'.entity.belongs .variables = false := by
    simpa [find?, hs, (find?_eq_some h).1] using hnone
  funext y
  rw [types_put]
  by_cases hy : y = x
  · simp [hy, hother, types, hnone]
  · rw [if_neg hy]

theorem returns_setType {t : Table} {x : String} {s : Symbol} (h : t.find? x (some .variables) = some s)
    (type : Option Ty) : (t.put x (s.setType type)).returns = t.returns := by
  have hnone : t.find? x (some .functions) = none :=
    find?_eq_none_of_other (by decide) (by decide) (by decide) h
  funext y
  rw [returns_put]
  by_cases hy : y = x
  · simp [hy, returns, hnone, Symbol.setType, Entity.belongs]
  · rw [if_neg hy]

theorem returns_setParams {t : Table} {x : String} {s : Symbol} (h : t.find? x (some .functions) = some s)
    (keys : List String) : (t.put x (s.setParams keys)).returns = t.returns := by
  have hs : (s.setParams keys).entity.belongs .functions = true := (find?_eq_some h).2
  funext y
  rw [returns_put, if_pos hs]
  by_cases hy : y = x
  · rw [if_pos hy, hy, returns, h]
    rfl
  · rw [if_neg hy]

theorem types_declare {t : Table} {x : String} (h : t.lookup x = none) (what : Declared) :
    (t.put x (Symbol.ofEntity x what.entity)).types =
      if what = .function then t.types else t.types.write x none := by
  have hnone : t.types x = none := by
    simp [types, find?, h]
  funext y
  rw [types_put]
  by_cases hy : y = x
  · cases what <;> simp [hy, hnone, Notes.write, Symbol.ofEntity, Declared.entity, Entity.belongs, Symbol.type?]
  · cases what <;> simp [hy, Notes.write]

theorem returns_declare {t : Table} {x : String} (h : t.lookup x = none) (what : Declared) :
    (t.put x (Symbol.ofEntity x what.entity)).returns =
      if what = .function then t.returns.write x (some Ty.nil) else t.returns := by
  have hnone : t.returns x = none := by
    simp [returns, find?, h]
  funext y
  rw [returns_put]
  by_cases hy : y = x
  · cases what <;> simp [hy, hnone, Notes.write, Symbol.ofEntity, Declared.entity, Entity.belongs, Symbol.returns?,
      Entity.notes]
  · cases what <;> simp [hy, Notes.write]

end Table

namespace Scopes

def note {α : Type} (s : Scopes) (view : Table → Notes α) (n : Nat) (x : String) : Option α :=
  (s.tables.map view)[n]?.bind (· x)

def typeAt (s : Scopes) : Nat → String → Option (Option Ty) :=
  s.note Table.types

def returnsAt (s : Scopes) : Nat → String → Option (Option Ty) :=
  s.note Table.returns

theorem length_chainTables_outer (s : Scopes) : (chainTables s.outer).length = s.sketch.here :=
  length_chainTables s.outer

section Maps

variable {β : Type} {φ : Table → β} {ψ : β → β}

theorem map_tables_declared (s : Scopes) (what : Declared) (x : String)
    (h : φ (s.current.table.put x (Symbol.ofEntity x what.entity)) = ψ (φ s.current.table)) :
    (s.declared what x).tables.map φ = (s.tables.map φ).modify s.sketch.here ψ := by
  have hhere : ((chainTables s.outer).map φ).length = s.sketch.here := by
    rw [List.length_map, s.length_chainTables_outer]
  rw [tables_eq, tables_eq]
  simp only [chain, declared, chainTables, List.map_append, List.map_cons, h]
  exact (modify_append_cons hhere _ _ ψ).symm

end Maps

theorem home?_lt {s : Scopes} {x : String} {c : Category} {n : Nat} (h : s.home? x c = some n) :
    n < s.tables.length := by
  rw [tables_eq]
  exact homeIn_lt h

theorem here_lt (s : Scopes) : s.sketch.here < s.tables.length := by
  rw [tables_eq, length_chainTables]
  exact Outline.numbers_lt (.head _)

section Views

variable {α : Type} {view : Table → Notes α} {x : String} {t : α}

theorem note_modify {s : Scopes} {m : Nat} (hm : m < s.tables.length) (n : Nat) (y : String) :
    ((s.tables.map view).modify m fun v => v.write x t)[n]?.bind (· y) =
      if m = n ∧ y = x then some t else s.note view n y := by
  rw [List.getElem?_modify, note]
  by_cases hn : m = n
  · subst hn
    simp [hm, Notes.write]
  · simp [hn]

theorem note_enter (s : Scopes) (hview : view [] = fun _ => none) (name : String) :
    (s.enter name).note view = s.note view := by
  funext n y
  rw [note, tables_enter, List.map_append, note]
  by_cases hn : n < (s.tables.map view).length
  · rw [List.getElem?_append_left hn]
  · have hge := Nat.le_of_not_lt hn
    rw [List.getElem?_eq_none hge, List.getElem?_append_right hge, List.map_cons, hview]
    cases n - (s.tables.map view).length <;> rfl

theorem note_exit (s : Scopes) : s.exit.note view = s.note view := by
  funext n y
  rw [note, tables_exit, note]

theorem note_changeIn {c : Category} {change : Symbol → Symbol}
    (h : ∀ u s, Table.find? u x (some c) = some s → view (u.put x (change s)) = (view u).write x t) (s : Scopes)
    (n : Nat) (y : String) :
    (s.withChain (changeIn x c change s.chain)).note view n y =
      if s.home? x c = some n ∧ y = x then some t else s.note view n y := by
  rw [note, map_tables_changeIn (ψ := fun v => v.write x t) h]
  cases hm : s.home? x c with
  | none => simp [note]
  | some m => simpa using note_modify (home?_lt hm) n y

theorem note_declared {s : Scopes} {what : Declared}
    (h : view (s.current.table.put x (Symbol.ofEntity x what.entity)) = (view s.current.table).write x t) (n : Nat)
    (y : String) :
    (s.declared what x).note view n y = if s.sketch.here = n ∧ y = x then some t else s.note view n y := by
  rw [note, s.map_tables_declared (ψ := fun v => v.write x t) what x h]
  exact note_modify s.here_lt n y

-- The same changes, where the view does not show them.

theorem note_changeIn_of_blind {c : Category} {change : Symbol → Symbol}
    (h : ∀ u s, Table.find? u x (some c) = some s → view (u.put x (change s)) = view u) (s : Scopes) :
    (s.withChain (changeIn x c change s.chain)).note view = s.note view := by
  funext n y
  rw [note, map_tables_changeIn (ψ := id) h]
  cases s.home? x c with
  | none => rfl
  | some m => simp only [List.modify_id, note]

theorem note_declared_of_blind {s : Scopes} {what : Declared}
    (h : view (s.current.table.put x (Symbol.ofEntity x what.entity)) = view s.current.table) :
    (s.declared what x).note view = s.note view := by
  funext n y
  rw [note, s.map_tables_declared (ψ := id) what x h, List.modify_id, note]

end Views

theorem typeAt_setType (s : Scopes) (x : String) (t : Option Ty) (n : Nat) (y : String) :
    (s.setType x t).typeAt n y = if s.home? x .variables = some n ∧ y = x then some t else s.typeAt n y :=
  note_changeIn (fun u s _ => u.types_setType x s t) s n y

theorem returnsAt_setReturns (s : Scopes) (x : String) (t : Option Ty) (n : Nat) (y : String) :
    (s.setReturns x t).returnsAt n y =
      if s.home? x .functions = some n ∧ y = x then some t else s.returnsAt n y :=
  note_changeIn (fun _ _ h => Table.returns_setReturns h t) s n y

theorem returnsAt_setType (s : Scopes) (x : String) (t : Option Ty) : (s.setType x t).returnsAt = s.returnsAt :=
  note_changeIn_of_blind (fun _ _ h => Table.returns_setType h t) s

theorem typeAt_setReturns (s : Scopes) (x : String) (t : Option Ty) : (s.setReturns x t).typeAt = s.typeAt := by
  have hsame : ∀ (u : Table) (f : Symbol), u.find? x (some .functions) = some f →
      (u.put x (f.setReturns t)).types = u.types := fun _ _ h => Table.types_put_function h rfl
  exact note_changeIn_of_blind hsame s

theorem typeAt_setParams (s : Scopes) (x : String) (keys : List String) : (s.setParams x keys).typeAt = s.typeAt := by
  have hsame : ∀ (u : Table) (f : Symbol), u.find? x (some .functions) = some f →
      (u.put x (f.setParams keys)).types = u.types := fun _ _ h => Table.types_put_function h rfl
  exact note_changeIn_of_blind hsame s

theorem returnsAt_setParams (s : Scopes) (x : String) (keys : List String) :
    (s.setParams x keys).returnsAt = s.returnsAt :=
  note_changeIn_of_blind (fun _ _ h => Table.returns_setParams h keys) s

theorem typeAt_declared {s : Scopes} {x : String} (h : s.current.table.lookup x = none) {what : Declared}
    (hwhat : what.category = .variables) (n : Nat) (y : String) :
    (s.declared what x).typeAt n y = if s.sketch.here = n ∧ y = x then some none else s.typeAt n y := by
  refine note_declared ?_ n y
  rw [Table.types_declare h, if_neg]
  rintro rfl
  cases hwhat

theorem returnsAt_declared {s : Scopes} {x : String} (h : s.current.table.lookup x = none) (n : Nat) (y : String) :
    (s.declared .function x).returnsAt n y =
      if s.sketch.here = n ∧ y = x then some (some Ty.nil) else s.returnsAt n y :=
  note_declared (by rw [Table.returns_declare h, if_pos rfl]) n y

theorem typeAt_declared_function {s : Scopes} {x : String} (h : s.current.table.lookup x = none) :
    (s.declared .function x).typeAt = s.typeAt :=
  note_declared_of_blind (by rw [Table.types_declare h, if_pos rfl])

theorem returnsAt_declared_variable {s : Scopes} {x : String} (h : s.current.table.lookup x = none) {what : Declared}
    (hwhat : what.category = .variables) : (s.declared what x).returnsAt = s.returnsAt := by
  refine note_declared_of_blind ?_
  rw [Table.returns_declare h, if_neg]
  rintro rfl
  cases hwhat

theorem tables_here (s : Scopes) : s.tables[s.sketch.here]? = some s.current.table := by
  rw [tables_eq, chain, chainTables, ← s.length_chainTables_outer, List.getElem?_append_right (Nat.le_refl _),
    Nat.sub_self, List.getElem?_cons_zero]

theorem note_of_table {α : Type} {s : Scopes} {n : Nat} {u : Table} (h : s.tables[n]? = some u)
    (view : Table → Notes α) (x : String) : s.note view n x = view u x := by
  rw [note, List.getElem?_map, h, Option.map_some, Option.bind_some]

theorem find?_home {s : Scopes} {x : String} {c : Category} {n : Nat} (h : s.home? x c = some n) :
    ∃ u symbol, s.tables[n]? = some u ∧ u.find? x (some c) = some symbol ∧ s.find? x (some c) = some symbol := by
  cases hfound : s.find? x (some c) with
  | none =>
    have hnone : s.home? x c = none := homeIn_eq_none hfound
    rw [hnone] at h
    cases h
  | some symbol =>
    obtain ⟨m, u, hm, hu, hsymbol⟩ := findIn_home hfound
    have hmn : m = n := Option.some.inj (hm.symm.trans h)
    rw [← tables_eq, hmn] at hu
    exact ⟨u, symbol, hu, hsymbol, rfl⟩

theorem typeAt_home {s : Scopes} {x : String} {n : Nat} (h : s.home? x .variables = some n) :
    s.typeAt n x = some ((s.find? x (some .variables)).bind Symbol.type?) := by
  obtain ⟨u, symbol, hu, hsymbol, hfound⟩ := find?_home h
  rw [typeAt, note_of_table hu, Table.types, hsymbol, hfound]
  rfl

theorem returnsAt_home {s : Scopes} {x : String} {n : Nat} (h : s.home? x .functions = some n) :
    s.returnsAt n x = some ((s.find? x (some .functions)).bind Symbol.returns?) := by
  obtain ⟨u, symbol, hu, hsymbol, hfound⟩ := find?_home h
  rw [returnsAt, note_of_table hu, Table.returns, hsymbol, hfound]
  rfl

theorem home?_of_find? {s : Scopes} {x : String} {c : Category} (h : (s.find? x (some c)).isSome = true) :
    ∃ n, s.home? x c = some n := by
  obtain ⟨symbol, hsymbol⟩ := Option.isSome_iff_exists.mp h
  obtain ⟨n, -, hn, -⟩ := findIn_home hsymbol
  exact ⟨n, hn⟩

theorem home?_declared (s : Scopes) (what : Declared) (x : String) :
    (s.declared what x).home? x what.category = some s.sketch.here := by
  have hbelongs : (Symbol.ofEntity x what.entity).entity.belongs what.category = true := by
    cases what <;> rfl
  have hfound : ((s.current.table.put x (Symbol.ofEntity x what.entity)).find? x (some what.category)).isSome = true := by
    rw [Table.find?_put, if_pos rfl, if_pos hbelongs]
    rfl
  rw [home?, chain, declared, homeIn, if_pos hfound, s.length_chainTables_outer]

end Scopes

theorem homeIn_congr {fs gs : List Frame} {x : String} {c : Category} (hc : c ≠ .objects)
    (h : fs.map Frame.outline = gs.map Frame.outline) : homeIn fs x c = homeIn gs x c := by
  induction fs generalizing gs with
  | nil =>
    cases gs with
    | nil => rfl
    | cons g gs => cases h
  | cons f fs ih =>
    cases gs with
    | nil => cases h
    | cons g gs =>
      simp only [List.map_cons, List.cons.injEq] at h
      have hkeys : f.table.keys = g.table.keys := congrArg Outline.keys h.1
      rw [homeIn, homeIn, Table.find?_isSome _ _ hc, Table.find?_isSome _ _ hc, hkeys, length_chainTables,
        length_chainTables, h.2, ih h.2]

theorem Scopes.home?_congr {s s' : Scopes} (h : s.sketch = s'.sketch) (x : String) {c : Category}
    (hc : c ≠ .objects) : s.home? x c = s'.home? x c := by
  have hcurrent : s.current.outline = s'.current.outline := congrArg Sketch.current h
  have houter : s.outer.map Frame.outline = s'.outer.map Frame.outline := congrArg Sketch.outer h
  refine homeIn_congr hc ?_
  rw [Scopes.chain, Scopes.chain, List.map_cons, List.map_cons, hcurrent, houter]

end CompiScript
