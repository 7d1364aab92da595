import CompiScript.Proofs.Identifiers
import CompiScript.Proofs.Sessions
import CompiScript.Proofs.Uniqueness

namespace CompiScript

open Syntax Step

structure Parallel (I : String → Prop) (F K f k : Frame) : Prop where
  name : f.name = F.name ∧ k.name = K.name
  level : f.level = F.level ∧ k.level = K.level
  same : ∀ x, I x → f.table.lookup x = k.table.lookup x
  left : ∀ x, ¬I x → f.table.lookup x = F.table.lookup x
  right : ∀ x, ¬I x → k.table.lookup x = K.table.lookup x
  closed : ∃ more, f.closed = F.closed ++ more ∧ k.closed = K.closed ++ more

inductive Alike (I : String → Prop) (F K : Frame) : List Frame → List Frame → Prop
  | global {f k : Frame} (h : Parallel I F K f k) : Alike I F K [f] [k]
  | inner {c : Frame} {fs ks : List Frame} (h : Alike I F K fs ks) : Alike I F K (c :: fs) (c :: ks)

variable {I : String → Prop} {F K : Frame}

namespace Parallel

variable {f k : Frame}

theorem refl_of_same (h : ∀ x, I x → F.table.lookup x = K.table.lookup x) : Parallel I F K F K :=
  ⟨⟨rfl, rfl⟩, ⟨rfl, rfl⟩, h, fun _ _ => rfl, fun _ _ => rfl, [], by simp, by simp⟩

theorem put (h : Parallel I F K f k) {x : String} (hx : I x) (s : Symbol) :
    Parallel I F K { f with table := f.table.put x s } { k with table := k.table.put x s } := by
  have hother : ∀ y, ¬I y → y ≠ x := by
    rintro y hy rfl
    exact hy hx
  refine ⟨h.name, h.level, ?_, ?_, ?_, h.closed⟩
  · intro y hy
    rw [Table.lookup_put, Table.lookup_put, h.same y hy]
  · intro y hy
    rw [Table.lookup_put, if_neg (hother y hy)]
    exact h.left y hy
  · intro y hy
    rw [Table.lookup_put, if_neg (hother y hy)]
    exact h.right y hy

theorem adopt (h : Parallel I F K f k) (s : Scope) :
    Parallel I F K { f with closed := f.closed ++ [s] } { k with closed := k.closed ++ [s] } := by
  obtain ⟨more, hf, hk⟩ := h.closed
  refine ⟨h.name, h.level, h.same, h.left, h.right, more ++ [s], ?_, ?_⟩
  · rw [hf, List.append_assoc]
  · rw [hk, List.append_assoc]

end Parallel

theorem Table.find?_congr {t u : Table} {x : String} (h : t.lookup x = u.lookup x) (c : Option Category) :
    t.find? x c = u.find? x c := by
  rw [find?, find?, h]

namespace Alike

variable {fs ks : List Frame} {x : String}

theorem find_eq (h : Alike I F K fs ks) (hx : I x) (c : Option Category) : findIn fs x c = findIn ks x c := by
  induction h with
  | global h => simp only [findIn, Table.find?_congr (h.same x hx)]
  | inner h ih => simp only [findIn, ih]

theorem change (h : Alike I F K fs ks) (hx : I x) (c : Category) (f : Symbol → Symbol) :
    Alike I F K (changeIn x c f fs) (changeIn x c f ks) := by
  induction h with
  | global h =>
    simp only [changeIn, Table.find?_congr (h.same x hx)]
    split
    · exact .global (h.put hx _)
    · exact .global h
  | inner h ih =>
    simp only [changeIn]
    split
    · exact .inner h
    · exact .inner ih

theorem lookup_eq {f k : Frame} (h : Alike I F K (f :: fs) (k :: ks)) (hx : I x) :
    f.table.lookup x = k.table.lookup x := by
  cases h with
  | global h => exact h.same x hx
  | inner h => rfl

theorem put {f k : Frame} (h : Alike I F K (f :: fs) (k :: ks)) (hx : I x) (s : Symbol) :
    Alike I F K ({ f with table := f.table.put x s } :: fs) ({ k with table := k.table.put x s } :: ks) := by
  cases h with
  | global h => exact .global (h.put hx s)
  | inner h => exact .inner h

theorem adopt {f k : Frame} (h : Alike I F K (f :: fs) (k :: ks)) (s : Scope) :
    Alike I F K ({ f with closed := f.closed ++ [s] } :: fs) ({ k with closed := k.closed ++ [s] } :: ks) := by
  cases h with
  | global h => exact .global (h.adopt s)
  | inner h => exact .inner h

theorem exit {s t : Scopes} (h : Alike I F K s.chain t.chain) (hdepth : s.depth = t.depth) :
    s.exit.depth = t.exit.depth ∧ Alike I F K s.exit.chain t.exit.chain := by
  obtain ⟨c, outer, depth⟩ := s
  obtain ⟨c', outer', depth'⟩ := t
  change Alike I F K (c :: outer) (c' :: outer') at h
  cases h with
  | global h => exact ⟨hdepth, .global h⟩
  | inner h =>
    cases outer with
    | nil => cases h
    | cons f fs =>
      cases outer' with
      | nil => cases h
      | cons k ks => exact ⟨congrArg (· - 1) hdepth, h.adopt (c.close none)⟩

end Alike

structure Beside (I : String → Prop) (F K : Frame) (g h : Stage) : Prop where
  inPrint : g.inPrint = h.inPrint
  inReturn : g.inReturn = h.inReturn
  type : g.type = h.type
  depth : g.scopes.depth = h.scopes.depth
  chain : Alike I F K g.scopes.chain h.scopes.chain

namespace Beside

variable {g h g' : Stage}

theorem find_eq (hb : Beside I F K g h) {x : String} (hx : I x) (c : Option Category) :
    g.scopes.find? x c = h.scopes.find? x c :=
  hb.chain.find_eq hx c

theorem withChain (hb : Beside I F K g h) {fs ks : List Frame} (hchain : Alike I F K fs ks) :
    Beside I F K { g with scopes := g.scopes.withChain fs } { h with scopes := h.scopes.withChain ks } := by
  cases hchain with
  | global hp => exact ⟨hb.inPrint, hb.inReturn, hb.type, hb.depth, .global hp⟩
  | inner hp => exact ⟨hb.inPrint, hb.inReturn, hb.type, hb.depth, .inner hp⟩

theorem retype (hb : Beside I F K g h) (t : Option Ty) : Beside I F K { g with type := t } { h with type := t } :=
  ⟨hb.inPrint, hb.inReturn, rfl, hb.depth, hb.chain⟩

theorem setType (hb : Beside I F K g h) {x : String} (hx : I x) :
    Beside I F K { g with scopes := g.scopes.setType x g.type } { h with scopes := h.scopes.setType x h.type } := by
  have hset := hb.withChain (hb.chain.change hx .variables fun s => s.setType g.type)
  rw [← hb.type]
  exact hset.retype g.type

theorem takes {s : Step} (hs : s.Within I) (hb : Beside I F K g h) (htakes : s.Takes g g') :
    ∃ h', s.Takes h h' ∧ Beside I F K g' h' := by
  -- What a step looks up it finds on both sides, since it keeps to the names in `I`.
  cases htakes with
  | enter scope =>
    refine ⟨_, .enter scope, hb.inPrint, hb.inReturn, hb.type, congrArg (· + 1) hb.depth, ?_⟩
    have hopened : h.scopes.enter scope =
        ⟨Frame.opened scope (g.scopes.depth + 1), h.scopes.chain, h.scopes.depth + 1⟩ := by
      rw [hb.depth]
      rfl
    rw [hopened]
    exact .inner hb.chain
  | exit =>
    obtain ⟨hdepth, hchain⟩ := hb.chain.exit hb.depth
    exact ⟨_, .exit, hb.inPrint, hb.inReturn, hb.type, hdepth, hchain⟩
  | declare hfree hnew =>
    refine ⟨_, .declare ?_ ?_, hb.inPrint, hb.inReturn, hb.type, hb.depth, hb.chain.put hs _⟩
    · rw [← hb.find_eq hs]
      exact hfree
    · rw [← hb.chain.lookup_eq hs]
      exact hnew
  | bind f keys =>
    have hbound := hb.withChain (hb.chain.change hs.1 .functions fun s => s.setParams keys)
    exact ⟨_, .bind f keys, hbound.inPrint, rfl, hbound.type, hbound.depth, hbound.chain⟩
  | unbind => exact ⟨_, .unbind, hb.inPrint, rfl, hb.type, hb.depth, hb.chain⟩
  | beginPrint => exact ⟨_, .beginPrint, rfl, hb.inReturn, hb.type, hb.depth, hb.chain⟩
  | endPrint => exact ⟨_, .endPrint, rfl, hb.inReturn, hb.type, hb.depth, hb.chain⟩
  | aim hfound =>
    rw [hb.find_eq hs] at hfound
    exact ⟨_, .aim hfound, hb⟩
  | @weigh e t ht =>
    rw [LogicOr.type_congr hb.inPrint hb.inReturn (fun x hx => hb.find_eq hx _) hs] at ht
    exact ⟨_, .weigh ht, hb.retype t⟩
  | assignFirst hold =>
    rw [hb.find_eq hs] at hold
    exact ⟨_, .assignFirst hold, (hb.setType hs).retype none⟩
  | assignAgain hold hshow =>
    rw [hb.find_eq hs] at hold
    rw [hb.type] at hshow
    exact ⟨_, .assignAgain hold hshow, hb.retype none⟩
  | initialise x => exact ⟨_, .initialise x, hb.setType hs⟩
  | require ht =>
    rw [hb.type] at ht
    exact ⟨_, .require ht, hb⟩
  | returnBare f => exact ⟨_, .returnBare f, hb⟩
  | returnUnchecked hflag =>
    rw [hb.inReturn] at hflag
    exact ⟨_, .returnUnchecked hflag, hb⟩
  | @returnFirst f hflag hold =>
    have hf : I f := hs f rfl
    rw [hb.inReturn] at hflag
    rw [hb.find_eq hf] at hold
    have hset := hb.withChain (hb.chain.change hf .functions fun s => s.setReturns g.type)
    refine ⟨_, .returnFirst hflag hold, ?_⟩
    rw [← hb.type]
    exact hset.retype g.type
  | @returnAgain f hflag hold hshow =>
    have hf : I f := hs f rfl
    rw [hb.inReturn] at hflag
    rw [hb.find_eq hf] at hold hshow
    rw [hb.type] at hshow
    exact ⟨_, .returnAgain hflag hold hshow, hb⟩

theorem run {steps : List Step} (hsteps : Confined I steps) (hb : Beside I F K g h)
    (hrun : execute steps g = (none, g')) : ∃ h', execute steps h = (none, h') ∧ Beside I F K g' h' := by
  induction steps generalizing g h with
  | nil =>
    cases hrun
    exact ⟨h, rfl, hb⟩
  | cons s steps ih =>
    obtain ⟨g₁, hs, hrest⟩ := execute_cons_ok hrun
    obtain ⟨h₁, htakes, hb₁⟩ := hb.takes (hsteps s (.head _)) (run_takes hs)
    obtain ⟨h', hrun', hb'⟩ := ih (fun t ht => hsteps t (.tail _ ht)) hb₁ hrest
    exact ⟨h', execute_trans (execute_single htakes.run) hrun', hb'⟩

end Beside

end CompiScript
