import CompiScript.Proofs.Failures.Broken
import CompiScript.Proofs.Links.Calls

namespace CompiScript

def Symbol.fits (s : Symbol) : Option Category → Bool
  | none => true
  | some c => s.entity.belongs c

namespace Table

variable {t left right : Table} {x y : String} {s old new : Symbol} {category : Option Category}

theorem find?_eq_filter (t : Table) (x : String) (category : Option Category) :
    t.find? x category = (t.lookup x).filter fun s => s.fits category := by
  rw [find?]
  cases t.lookup x with
  | none => rfl
  | some s =>
    cases category with
    | none => rfl
    | some c =>
      rw [Option.filter_some]
      rfl

theorem exists_append_of_lookup (h : t.lookup x = some s) :
    ∃ left right : Table, t = left ++ (x, s) :: right ∧ x ∉ left.names := by
  obtain ⟨left, right, rfl, hleft⟩ := List.lookup_eq_some_iff.mp h
  refine ⟨left, right, rfl, ?_⟩
  intro hx
  obtain ⟨p, hp, rfl⟩ := List.mem_map.mp hx
  simpa using hleft p hp

theorem put_append (hx : x ∉ left.names) : put (left ++ (x, old) :: right) x new = left ++ (x, new) :: right := by
  induction left with
  | nil => simp [put]
  | cons p left ih =>
    obtain ⟨n, first⟩ := p
    simp only [names, List.map_cons, List.mem_cons, not_or] at hx
    rw [List.cons_append, put, if_neg (Ne.symm hx.1), ih hx.2, List.cons_append]

end Table

theorem findIn_append (fs gs : List Frame) (x : String) (category : Option Category) :
    findIn (fs ++ gs) x category = (findIn fs x category).or (findIn gs x category) := by
  induction fs with
  | nil => rfl
  | cons f fs ih =>
    rw [List.cons_append, findIn, findIn]
    cases f.table.find? x category with
    | none => exact ih
    | some s => rfl

theorem findIn_eq_none {fs : List Frame} {x : String} {category : Option Category} :
    findIn fs x category = none ↔ ∀ f ∈ fs, f.table.find? x category = none := by
  induction fs with
  | nil => simp [findIn]
  | cons f fs ih =>
    rw [findIn, List.forall_mem_cons, ← ih]
    cases f.table.find? x category with
    | none => simp
    | some s => simp

theorem chainTables_append (fs gs : List Frame) : chainTables (fs ++ gs) = chainTables gs ++ chainTables fs := by
  induction fs with
  | nil => exact (List.append_nil _).symm
  | cons f fs ih => rw [List.cons_append, chainTables, chainTables, ih, List.append_assoc]

namespace Scopes

theorem replaceIn_append {fs : List Frame} {x : String} {category : Option Category}
    (h : ∀ f ∈ fs, f.table.find? x category = none) (gs : List Frame) (new : Symbol) :
    replaceIn (fs ++ gs) x new category = (replaceIn gs x new category).map (fs ++ ·) := by
  induction fs with
  | nil => simp
  | cons f fs ih =>
    obtain ⟨hf, hfs⟩ := List.forall_mem_cons.mp h
    rw [List.cons_append, replaceIn, hf, ih hfs, Option.map_map]
    rfl

theorem replaceIn_eq_none {fs : List Frame} {x : String} {new : Symbol} {category : Option Category}
    (h : findIn fs x category = none) : replaceIn fs x new category = none := by
  have happend := replaceIn_append (findIn_eq_none.mp h) [] new
  rwa [List.append_nil] at happend

theorem climb_links_exit (s : Scopes) (n i : Nat) : s.exit.links.climb n i = s.links.climb n i := by
  induction n generalizing i with
  | zero => rfl
  | succ n ih =>
    have hparent : s.exit.links.parent? i = s.links.parent? i := by
      simp only [Links.parent?, links, tree_exit]
    rw [Links.climb, Links.climb, hparent]
    congr 1
    funext j
    exact ih j

theorem parent?_current {s : Scopes} (h : s.outer ≠ []) :
    s.links.parent? s.links.current = some s.exit.links.current := by
  have hparent := s.sketch.parent?_here
  rw [← links_eq] at hparent
  rw [hparent]
  obtain ⟨current, outer, depth⟩ := s
  cases outer with
  | nil => contradiction
  | cons f fs => rfl

theorem climb_chain {s : Scopes} {inner outer : List Frame} {f : Frame} (h : s.chain = inner ++ f :: outer) :
    s.links.climb inner.length s.links.current = some (chainTables outer).length := by
  obtain ⟨n, hn⟩ : ∃ n, inner.length = n := ⟨_, rfl⟩
  induction n generalizing s inner f with
  | zero =>
    obtain rfl := List.length_eq_zero_iff.mp hn
    cases h
    rw [length_chainTables]
    rfl
  | succ n ih =>
    obtain ⟨current, inward, depth⟩ := s
    obtain ⟨first, rest, rfl⟩ := List.exists_cons_of_length_eq_add_one hn
    cases h
    -- leaving the current scope makes the chain shorter by one; the frame that it is left to is either `f` or in `rest`
    have hexit : ∃ rest' f', (exit ⟨current, rest ++ f :: outer, depth⟩).chain = rest' ++ f' :: outer ∧
        rest'.length = rest.length := by
      cases rest with
      | nil => exact ⟨[], _, rfl, rfl⟩
      | cons next rest => exact ⟨_ :: rest, f, rfl, rfl⟩
    obtain ⟨rest', f', hchain, hlength⟩ := hexit
    have hout := ih hchain (hlength.trans (Nat.succ.inj hn))
    rw [climb_links_exit, hlength] at hout
    have houter : rest ++ f :: outer ≠ [] := List.append_ne_nil_of_right_ne_nil _ (List.cons_ne_nil _ _)
    rw [List.length_cons, Links.climb, parent?_current houter]
    exact hout

structure Entry (s : Scopes) (x : String) (category : Option Category) where
  inner : List Frame
  frame : Frame
  outer : List Frame
  left : Table
  symbol : Symbol
  right : Table
  chain_eq : s.chain = inner ++ frame :: outer
  table_eq : frame.table = left ++ (x, symbol) :: right
  first : ∀ f ∈ inner, f.table.find? x category = none
  once : x ∉ left.names
  fits : symbol.fits category = true

namespace Entry

variable {s : Scopes} {x : String} {category : Option Category} (e : s.Entry x category) (new : Symbol)

def table : Table :=
  e.left ++ (x, new) :: e.right

def number : Nat :=
  (chainTables e.outer).length

def replace : Scopes :=
  s.withChain (e.inner ++ { e.frame with table := e.table new } :: e.outer)

theorem put_eq : e.frame.table.put x new = e.table new := by
  rw [e.table_eq]
  exact Table.put_append e.once

theorem find?_table (y : String) (c : Option Category) :
    (e.table new).find? y c =
      if y = x then (some new).filter (fun s => s.fits c) else e.frame.table.find? y c := by
  rw [← e.put_eq, Table.find?_eq_filter, Table.lookup_put, Table.find?_eq_filter]
  by_cases hy : y = x
  · rw [if_pos hy, if_pos hy]
  · rw [if_neg hy, if_neg hy]

theorem find?_frame : e.frame.table.find? x category = some e.symbol := by
  have hsame : e.table e.symbol = e.frame.table := e.table_eq.symm
  rw [← hsame, e.find?_table, if_pos rfl, Option.filter_some, if_pos e.fits]

theorem update_eq : s.update x new category = .ok (e.replace new) := by
  have hhere : replaceIn (e.frame :: e.outer) x new category =
      some ({ e.frame with table := e.table new } :: e.outer) := by
    rw [replaceIn, e.find?_frame, e.put_eq]
  rw [update, e.chain_eq, replaceIn_append e.first, hhere]
  rfl

theorem chain_replace : (e.replace new).chain = e.inner ++ { e.frame with table := e.table new } :: e.outer := by
  rw [replace]
  cases e.inner with
  | nil => rfl
  | cons f inner => rfl

theorem find?_replace (y : String) (c : Option Category) :
    (e.replace new).find? y c =
      (findIn e.inner y c).or (((e.table new).find? y c).or (findIn e.outer y c)) := by
  rw [Scopes.find?, e.chain_replace, findIn_append, findIn]
  cases (e.table new).find? y c with
  | none => rfl
  | some found => rfl

theorem find?_replace_self :
    (e.replace new).find? x category = if new.fits category then some new else findIn e.outer x category := by
  rw [e.find?_replace, findIn_eq_none.mpr e.first, e.find?_table, if_pos rfl, Option.filter_some]
  split <;> rfl

theorem find?_replace_other {y : String} (hy : y ≠ x) (c : Option Category) :
    (e.replace new).find? y c = s.find? y c := by
  rw [e.find?_replace, e.find?_table, if_neg hy, Scopes.find?, e.chain_eq, findIn_append, findIn]
  cases e.frame.table.find? y c with
  | none => rfl
  | some found => rfl

theorem tables_eq : s.tables = chainTables e.outer ++ e.table e.symbol :: (Scope.tablesAll e.frame.closed ++
    chainTables e.inner) := by
  have hsame : e.table e.symbol = e.frame.table := e.table_eq.symm
  rw [Scopes.tables_eq, e.chain_eq, chainTables_append, chainTables, hsame, List.append_assoc]
  rfl

theorem tables_replace : (e.replace new).tables = s.tables.set e.number (e.table new) := by
  rw [Scopes.tables_eq, e.chain_replace, chainTables_append, chainTables, e.tables_eq, number, List.append_assoc,
    List.set_append_right _ _ (Nat.le_refl _), Nat.sub_self]
  rfl

end Entry

theorem exists_entry {s : Scopes} {x : String} {category : Option Category} {old : Symbol}
    (h : s.find? x category = some old) : ∃ e : s.Entry x category, e.symbol = old := by
  have hchain : ∀ fs, findIn fs x category = some old → ∃ inner frame outer, fs = inner ++ frame :: outer ∧
      (∀ f ∈ inner, f.table.find? x category = none) ∧ frame.table.find? x category = some old := by
    intro fs hfs
    induction fs with
    | nil => cases hfs
    | cons f fs ih =>
      rw [findIn] at hfs
      split at hfs
      · next found hf =>
        cases hfs
        exact ⟨[], f, fs, rfl, List.forall_mem_nil _, hf⟩
      · next hf =>
        obtain ⟨inner, frame, outer, rfl, hinner, hframe⟩ := ih hfs
        exact ⟨f :: inner, frame, outer, rfl, List.forall_mem_cons.mpr ⟨hf, hinner⟩, hframe⟩
  obtain ⟨inner, frame, outer, hsplit, hinner, hframe⟩ := hchain s.chain h
  rw [Table.find?_eq_filter, Option.filter_eq_some_iff] at hframe
  obtain ⟨hlookup, hfits⟩ := hframe
  obtain ⟨left, right, htable, honce⟩ := Table.exists_append_of_lookup hlookup
  exact ⟨⟨inner, frame, outer, left, old, right, hsplit, htable, hinner, honce, hfits⟩, rfl⟩

/-- A replacement is refused exactly where the look-up finds nothing, and leaves the scopes as they are then. Otherwise
the symbol takes the place of the one that is found, in the innermost scope that has one. -/
theorem update_agrees_with_find (s : Scopes) (x : String) (new : Symbol) (category : Option Category) :
    let call := ScopeCall.update x new category
    ((∃ error, (call.run s).1 = .error error) ↔ s.find? x category = none) ∧
    (s.find? x category = none → call.run s = (.error (.notFound x), s)) ∧
    ∀ old, s.find? x category = some old → ∃ e : s.Entry x category, e.symbol = old ∧
      call.run s = (.ok none, e.replace new) ∧
      s.links.climb e.inner.length s.links.current = some e.number ∧
      (e.replace new).links = s.links ∧
      s.tables[e.number]? = some (e.table old) ∧
      (e.replace new).tables = s.tables.set e.number (e.table new) ∧
      (e.table new).names = (e.table old).names ∧
      (e.replace new).find? x category = (if new.fits category then some new else findIn e.outer x category) ∧
      ∀ y c, y ≠ x → (e.replace new).find? y c = s.find? y c := by
  intro call
  have hrefused : s.find? x category = none → call.run s = (.error (.notFound x), s) := by
    intro hnone
    simp only [call, ScopeCall.run, update, replaceIn_eq_none hnone]
  have hdone : ∀ e : s.Entry x category, call.run s = (.ok none, e.replace new) := by
    intro e
    simp only [call, ScopeCall.run, e.update_eq]
  refine ⟨⟨?_, ?_⟩, hrefused, ?_⟩
  · rintro ⟨error, herror⟩
    cases hfound : s.find? x category with
    | none => rfl
    | some old =>
      obtain ⟨e, -⟩ := exists_entry hfound
      rw [hdone e] at herror
      cases herror
  · intro hnone
    exact ⟨_, congrArg Prod.fst (hrefused hnone)⟩
  · intro old hold
    obtain ⟨e, rfl⟩ := exists_entry hold
    refine ⟨e, rfl, hdone e, climb_chain e.chain_eq, links_update (e.update_eq new), ?_, e.tables_replace new, ?_,
      e.find?_replace_self new, fun y c hy => e.find?_replace_other new hy c⟩
    · rw [e.tables_eq, Entry.number, List.getElem?_append_right (Nat.le_refl _), Nat.sub_self]
      rfl
    · simp [Entry.table, Table.names]

end Scopes

end CompiScript
