import CompiScript.Proofs.Renaming.Steps
import CompiScript.Proofs.Sessions
import CompiScript.Proofs.Uniqueness

namespace CompiScript

open Syntax Step

def ParamList.rename (r : String → String) : ParamList → ParamList
  | given types => given types
  | keyed keys => keyed (keys.map r)

def EntityNotes.rename (r : String → String) : EntityNotes → EntityNotes
  | function returns params => function returns (params.map (ParamList.rename r))
  | notes => notes

def Symbol.rename (r : String → String) (s : Symbol) : Symbol :=
  ⟨r s.name, s.entity, s.noted.rename r⟩

namespace Symbol

variable (r : String → String) (s : Symbol)

theorem returns?_rename : (s.rename r).returns? = s.returns? := by
  obtain ⟨name, entity, noted⟩ := s
  cases noted <;> rfl

theorem params?_rename : (s.rename r).params? = s.params?.map (ParamList.rename r) := by
  obtain ⟨name, entity, noted⟩ := s
  cases noted <;> rfl

theorem setReturns_rename (t : Option Ty) : (s.rename r).setReturns t = (s.setReturns t).rename r := by
  rw [setReturns, params?_rename]
  rfl

theorem setParams_rename (keys : List String) : (s.rename r).setParams (keys.map r) = (s.setParams keys).rename r := by
  rw [setParams, returns?_rename]
  rfl

end Symbol

def Table.rename (r : String → String) (t : Table) : Table :=
  t.map fun e => (r e.1, e.2.rename r)

inductive Scope.Renamed (r : String → String) : Scope → Scope → Prop
  | mk {title title' : String} {level : Nat} {table : Table} {children children' : List Scope}
      (htitle : Retitled r title title') (hchildren : List.Forall₂ (Scope.Renamed r) children children') :
      Renamed r (.mk title level table children) (.mk title' level (table.rename r) children')

variable {I : String → Prop} {ρ : Renaming I}

namespace Table

variable {t : Table} {x : String}

theorem lookup_rename (ht : ∀ y ∈ t.names, I y) (hx : I x) :
    (t.rename ρ.apply).lookup (ρ.apply x) = (t.lookup x).map (Symbol.rename ρ.apply) := by
  induction t with
  | nil => rfl
  | cons e t ih =>
    obtain ⟨y, s⟩ := e
    have hrest := ih fun z hz => ht z (.tail _ hz)
    by_cases hxy : x = y
    · subst hxy
      simp [rename]
    · have hne : (ρ.apply x == ρ.apply y) = false :=
        beq_false_of_ne fun h => hxy (ρ.injective x y hx (ht y (.head _)) h)
      rw [rename] at hrest
      simp [rename, List.lookup_cons, beq_false_of_ne hxy, hne, hrest]

theorem find?_rename (ht : ∀ y ∈ t.names, I y) (hx : I x) (c : Option Category) :
    (t.rename ρ.apply).find? (ρ.apply x) c = (t.find? x c).map (Symbol.rename ρ.apply) := by
  rw [find?, find?, lookup_rename ht hx]
  cases t.lookup x with
  | none => rfl
  | some s =>
    cases c with
    | none => rfl
    | some c =>
      simp only [Option.map_some, Symbol.rename]
      split <;> rfl

theorem put_rename (ht : ∀ y ∈ t.names, I y) (hx : I x) (s : Symbol) :
    (t.put x s).rename ρ.apply = (t.rename ρ.apply).put (ρ.apply x) (s.rename ρ.apply) := by
  induction t with
  | nil => rfl
  | cons e t ih =>
    obtain ⟨y, old⟩ := e
    have hrest := ih fun z hz => ht z (.tail _ hz)
    by_cases hyx : y = x
    · subst hyx
      simp [rename, put]
    · have hne : ρ.apply y ≠ ρ.apply x := fun h => hyx (ρ.injective y x (ht y (.head _)) hx h)
      rw [rename, rename] at hrest
      simp [rename, put, hyx, hne, hrest]

theorem names_rename (t : Table) (r : String → String) : (t.rename r).names = t.names.map r := by
  simp [names, rename]

end Table

structure Frame.Renamed (ρ : Renaming I) (f f' : Frame) : Prop where
  name : Retitled ρ.apply f.name f'.name
  level : f'.level = f.level
  table : f'.table = f.table.rename ρ.apply
  closed : List.Forall₂ (Scope.Renamed ρ.apply) f.closed f'.closed
  keys : ∀ x ∈ f.table.names, I x

namespace Frame.Renamed

variable {f f' : Frame} {x : String}

theorem find (h : f.Renamed ρ f') (hx : I x) (c : Option Category) :
    f'.table.find? (ρ.apply x) c = (f.table.find? x c).map (Symbol.rename ρ.apply) := by
  rw [h.table]
  exact Table.find?_rename h.keys hx c

theorem put (h : f.Renamed ρ f') (hx : I x) (s : Symbol) :
    Frame.Renamed ρ { f with table := f.table.put x s }
      { f' with table := f'.table.put (ρ.apply x) (s.rename ρ.apply) } := by
  refine ⟨h.name, h.level, ?_, h.closed, ?_⟩
  · rw [Table.put_rename h.keys hx, h.table]
  · intro y hy
    obtain ⟨e, he, rfl⟩ := List.mem_map.mp hy
    rcases Table.mem_put he with rfl | hmem
    · exact hx
    · exact h.keys e.1 (List.mem_map_of_mem hmem)

theorem adopt (h : f.Renamed ρ f') {s s' : Scope} (hs : s.Renamed ρ.apply s') :
    Frame.Renamed ρ { f with closed := f.closed ++ [s] } { f' with closed := f'.closed ++ [s'] } :=
  ⟨h.name, h.level, h.table, List.rel_append h.closed (.cons hs .nil), h.keys⟩

theorem close (h : f.Renamed ρ f') {last last' : Option Scope}
    (hlast : List.Forall₂ (Scope.Renamed ρ.apply) last.toList last'.toList) :
    (f.close last).Renamed ρ.apply (f'.close last') := by
  rw [Frame.close, Frame.close, h.level, h.table]
  exact .mk h.name (List.rel_append h.closed hlast)

end Frame.Renamed

abbrev FramesRenamed (ρ : Renaming I) : List Frame → List Frame → Prop :=
  List.Forall₂ (Frame.Renamed ρ)

namespace FramesRenamed

variable {fs fs' : List Frame} {x : String}

theorem find (h : FramesRenamed ρ fs fs') (hx : I x) (c : Option Category) :
    findIn fs' (ρ.apply x) c = (findIn fs x c).map (Symbol.rename ρ.apply) := by
  induction h with
  | nil => rfl
  | @cons f f' fs fs' hf h ih =>
    simp only [findIn, hf.find hx, ih]
    cases f.table.find? x c <;> rfl

theorem change (h : FramesRenamed ρ fs fs') (hx : I x) (c : Category) {m m' : Symbol → Symbol}
    (hm : ∀ s, m' (s.rename ρ.apply) = (m s).rename ρ.apply) :
    FramesRenamed ρ (changeIn x c m fs) (changeIn (ρ.apply x) c m' fs') := by
  induction h with
  | nil => exact .nil
  | @cons f f' fs fs' hf h ih =>
    simp only [changeIn, hf.find hx]
    cases f.table.find? x (some c) with
    | none => exact .cons hf ih
    | some s =>
      simp only [Option.map_some, hm]
      exact .cons (hf.put hx _) h

theorem closeAll (h : FramesRenamed ρ fs fs') {t t' : Scope} (ht : t.Renamed ρ.apply t') :
    ∃ u u', Scopes.closeAll (some t) fs = some u ∧ Scopes.closeAll (some t') fs' = some u' ∧
      u.Renamed ρ.apply u' := by
  induction h generalizing t t' with
  | nil => exact ⟨t, t', rfl, rfl, ht⟩
  | cons hf h ih => exact ih (hf.close (.cons ht .nil))

end FramesRenamed

structure Scopes.Renamed (ρ : Renaming I) (s s' : Scopes) : Prop where
  depth : s'.depth = s.depth
  chain : FramesRenamed ρ s.chain s'.chain

namespace Scopes.Renamed

variable {s s' : Scopes} {x : String}

theorem current (h : s.Renamed ρ s') : s.current.Renamed ρ s'.current := by
  cases h.chain with
  | cons hf _ => exact hf

theorem outer (h : s.Renamed ρ s') : FramesRenamed ρ s.outer s'.outer := by
  cases h.chain with
  | cons _ hfs => exact hfs

theorem find (h : s.Renamed ρ s') (hx : I x) (c : Option Category) :
    s'.find? (ρ.apply x) c = (s.find? x c).map (Symbol.rename ρ.apply) :=
  h.chain.find hx c

theorem withChain (h : s.Renamed ρ s') {fs fs' : List Frame} (hfs : FramesRenamed ρ fs fs') :
    (s.withChain fs).Renamed ρ (s'.withChain fs') := by
  cases hfs with
  | nil => exact h
  | cons hf hfs => exact ⟨h.depth, .cons hf hfs⟩

theorem enter (h : s.Renamed ρ s') {title title' : String} (htitle : Retitled ρ.apply title title') :
    (s.enter title).Renamed ρ (s'.enter title') := by
  have hdepth : s'.depth + 1 = s.depth + 1 := congrArg (· + 1) h.depth
  exact ⟨hdepth, .cons ⟨htitle, hdepth, rfl, .nil, nofun⟩ h.chain⟩

theorem exit (h : s.Renamed ρ s') : s.exit.Renamed ρ s'.exit := by
  obtain ⟨c, outer, depth⟩ := s
  obtain ⟨c', outer', depth'⟩ := s'
  have hclosed : (c.close none).Renamed ρ.apply (c'.close none) := h.current.close .nil
  have houter := h.outer
  cases houter with
  | nil => exact h
  | cons hf hfs => exact ⟨congrArg (· - 1) h.depth, .cons (hf.adopt hclosed) hfs⟩

theorem declared (h : s.Renamed ρ s') (hx : I x) (what : Declared) :
    (s.declared what x).Renamed ρ (s'.declared what (ρ.apply x)) := by
  have hsymbol : Symbol.ofEntity (ρ.apply x) what.entity = (Symbol.ofEntity x what.entity).rename ρ.apply := by
    cases what <;> rfl
  have hcurrent := h.current.put hx (Symbol.ofEntity x what.entity)
  rw [← hsymbol] at hcurrent
  exact ⟨h.depth, .cons hcurrent h.outer⟩

theorem setParams (h : s.Renamed ρ s') (hx : I x) (keys : List String) :
    (s.setParams x keys).Renamed ρ (s'.setParams (ρ.apply x) (keys.map ρ.apply)) :=
  h.withChain (h.chain.change hx .functions fun s => s.setParams_rename ρ.apply keys)

theorem setType (h : s.Renamed ρ s') (hx : I x) (t : Option Ty) :
    (s.setType x t).Renamed ρ (s'.setType (ρ.apply x) t) :=
  h.withChain (h.chain.change hx .variables fun _ => rfl)

theorem setReturns (h : s.Renamed ρ s') (hx : I x) (t : Option Ty) :
    (s.setReturns x t).Renamed ρ (s'.setReturns (ρ.apply x) t) :=
  h.withChain (h.chain.change hx .functions fun s => s.setReturns_rename ρ.apply t)

theorem tree (h : s.Renamed ρ s') : s.tree.Renamed ρ.apply s'.tree := by
  have hinner : (s.current.close none).Renamed ρ.apply (s'.current.close none) := h.current.close .nil
  obtain ⟨u, u', hu, hu', hrenamed⟩ := h.outer.closeAll hinner
  rw [Scopes.tree, Scopes.tree, hu, hu']
  exact hrenamed

end Scopes.Renamed

end CompiScript
