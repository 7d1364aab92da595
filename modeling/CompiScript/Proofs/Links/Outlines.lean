import CompiScript.Proofs.Links.Sound

namespace CompiScript

open Syntax

namespace Outline

def childNumbers (next : Nat) : List Outline → List Nat
  | [] => []
  | o :: os => next :: childNumbers (next + o.size) os

mutual

def links (self : Nat) (parent : Option Nat) : Outline → List Link
  | .mk name level _ children =>
    ⟨name, level, parent, childNumbers (self + 1) children⟩ :: linksAll (self + 1) self children

def linksAll (next parent : Nat) : List Outline → List Link
  | [] => []
  | o :: os => o.links next (some parent) ++ linksAll (next + o.size) parent os

end

theorem childNumbers_append (next : Nat) (os ps : List Outline) :
    childNumbers next (os ++ ps) = childNumbers next os ++ childNumbers (next + sizes os) ps := by
  induction os generalizing next with
  | nil => rfl
  | cons o os ih => simp [childNumbers, ih, sizes, Nat.add_assoc]

theorem linksAll_append (next parent : Nat) (os ps : List Outline) :
    linksAll next parent (os ++ ps) = linksAll next parent os ++ linksAll (next + sizes os) parent ps := by
  induction os generalizing next with
  | nil => rfl
  | cons o os ih => simp [linksAll, ih, sizes, Nat.add_assoc]

def parentOf : List Outline → Option Nat
  | [] => none
  | _ :: outer => some (sizes outer)

def chainLinks : List Outline → List Nat → List Link
  | [], _ => []
  | .mk name level _ children :: outer, last =>
    chainLinks outer [sizes outer] ++
      ⟨name, level, parentOf outer, childNumbers (sizes outer + 1) children ++ last⟩ ::
        linksAll (sizes outer + 1) (sizes outer) children

mutual

theorem length_links (self : Nat) (parent : Option Nat) : ∀ o : Outline, (o.links self parent).length = o.size
  | .mk _ _ _ children => by
    rw [links, List.length_cons, length_linksAll (self + 1) self children, size]

theorem length_linksAll (next parent : Nat) : ∀ os : List Outline, (linksAll next parent os).length = sizes os
  | [] => rfl
  | o :: os => by
    rw [linksAll, List.length_append, length_links next (some parent) o,
      length_linksAll (next + o.size) parent os, sizes]

end

theorem length_chainLinks (os : List Outline) (last : List Nat) : (chainLinks os last).length = sizes os := by
  induction os generalizing last with
  | nil => rfl
  | cons o os ih =>
    obtain ⟨name, level, keys, children⟩ := o
    simp only [chainLinks, List.length_append, List.length_cons, ih, length_linksAll, sizes, size]
    omega

theorem chainLinks_adopt (o : Outline) (outer : List Outline) (child : Nat) :
    chainLinks (o :: outer) [child] =
      (chainLinks (o :: outer) []).modify (sizes outer) (fun l => l.adopt child) := by
  obtain ⟨name, level, keys, children⟩ := o
  simp only [chainLinks]
  rw [modify_append_cons (length_chainLinks outer [sizes outer])]
  simp [Link.adopt]

end Outline

def Scopes.links (s : Scopes) : Links :=
  ⟨s.tree.outline.links 0 none, s.sketch.here, s.depth⟩

def Sketch.links (k : Sketch) : Links :=
  ⟨Outline.chainLinks (k.current :: k.outer) [], k.here, k.depth⟩

theorem Scope.outlines_append (ss ts : List Scope) :
    Scope.outlines (ss ++ ts) = Scope.outlines ss ++ Scope.outlines ts := by
  induction ss with
  | nil => rfl
  | cons s ss ih => simp [outlines, ih]

theorem closeAll_links {t t' : Scope} {outer : List Frame} (h : Scopes.closeAll (some t) outer = some t') :
    t'.outline.links 0 none =
      Outline.chainLinks (outer.map Frame.outline) [Outline.sizes (outer.map Frame.outline)] ++
        t.outline.links (Outline.sizes (outer.map Frame.outline)) (Outline.parentOf (outer.map Frame.outline)) := by
  induction outer generalizing t with
  | nil => cases h; rfl
  | cons f fs ih =>
    have hnumber : Outline.sizes (Scope.outlines f.closed) + 1 + Outline.sizes (fs.map Frame.outline) =
        Outline.sizes (fs.map Frame.outline) + 1 + Outline.sizes (Scope.outlines f.closed) := by
      omega
    rw [ih h]
    simp only [Frame.close, Option.toList, Scope.outline, Scope.outlines_append, Scope.outlines, List.map_cons,
      Frame.outline, Outline.links, Outline.chainLinks, Outline.childNumbers_append, Outline.childNumbers,
      Outline.linksAll_append, Outline.linksAll, Outline.sizes, Outline.size, Outline.parentOf, List.append_assoc,
      List.cons_append, List.append_nil, hnumber]

namespace Scopes

theorem links_eq (s : Scopes) : s.links = s.sketch.links := by
  obtain ⟨t, ht⟩ := closeAll_isSome (s.current.close none) s.outer
  have hlinks : s.tree.outline.links 0 none = Outline.chainLinks (s.sketch.current :: s.sketch.outer) [] := by
    rw [tree_eq ht, closeAll_links ht]
    simp [sketch, Frame.outline, Outline.chainLinks, Frame.close, Scope.outline, Outline.links]
  simp only [links, Sketch.links, hlinks]
  rfl

theorem links_start : Scopes.start.links = ⟨[⟨"global", 0, none, []⟩], 0, 0⟩ :=
  rfl

end Scopes

namespace Sketch

theorem links_enter (k : Sketch) (name : String) : (k.enter name).links = k.links.enter name := by
  simp only [links, Links.enter, Outline.length_chainLinks]
  rw [enter, Outline.chainLinks, Outline.chainLinks_adopt]
  rfl

theorem links_extend (k : Sketch) (keys : List (String × Category)) : (k.extend keys []).links = k.links := by
  obtain ⟨⟨name, level, old, children⟩, outer, depth⟩ := k
  simp [links, extend, Outline.extend, Outline.chainLinks, here]

theorem parent?_here (k : Sketch) : k.links.parent? k.links.current = Outline.parentOf k.outer := by
  obtain ⟨⟨name, level, keys, children⟩, outer, depth⟩ := k
  simp only [links, Links.parent?, here, Outline.chainLinks]
  rw [List.getElem?_append_right (Nat.le_of_eq (Outline.length_chainLinks _ _)), Outline.length_chainLinks,
    Nat.sub_self]
  rfl

end Sketch

namespace Scopes

theorem links_enter (s : Scopes) (name : String) : (s.enter name).links = s.links.enter name := by
  rw [links_eq, links_eq]
  exact s.sketch.links_enter name

theorem links_exit (s : Scopes) : s.exit.links = s.links.exit := by
  have hparent := s.sketch.parent?_here
  rw [← links_eq] at hparent
  rw [Links.exit, hparent]
  simp only [links, tree_exit]
  obtain ⟨current, outer, depth⟩ := s
  cases outer with
  | nil => rfl
  | cons f fs => rfl

theorem exit_of_current_zero {s : Scopes} (h : s.links.current = 0) : s.exit = s := by
  obtain ⟨current, outer, depth⟩ := s
  cases outer with
  | nil => rfl
  | cons f fs =>
    have hpos : Outline.sizes (fs.map Frame.outline) < Outline.sizes ((f :: fs).map Frame.outline) :=
      Outline.numbers_lt (List.mem_cons_self ..)
    change Outline.sizes ((f :: fs).map Frame.outline) = 0 at h
    omega

theorem links_add {s s' : Scopes} {symbol : Symbol} (h : s.add symbol = .ok s') : s'.links = s.links := by
  have hframe : ∃ table, s' = { s with current := { s.current with table := table } } := by
    simp only [add, Frame.add] at h
    split at h
    · cases hd : symbol.entity.describe with
      | ok description => rw [hd] at h; cases h
      | error e => rw [hd] at h; cases h
    · cases ht : s.current.table.add symbol with
      | ok table => rw [ht] at h; cases h; exact ⟨table, rfl⟩
      | error e => rw [ht] at h; cases h
  obtain ⟨table, rfl⟩ := hframe
  rw [links_eq, links_eq]
  rfl

theorem replaceIn_links {fs fs' : List Frame} {name : String} {symbol : Symbol} {category : Option Category}
    (h : replaceIn fs name symbol category = some fs') :
    Outline.sizes (fs'.map Frame.outline) = Outline.sizes (fs.map Frame.outline) ∧
      Outline.parentOf (fs'.map Frame.outline) = Outline.parentOf (fs.map Frame.outline) ∧
      ∀ last, Outline.chainLinks (fs'.map Frame.outline) last = Outline.chainLinks (fs.map Frame.outline) last := by
  induction fs generalizing fs' with
  | nil => cases h
  | cons f fs ih =>
    simp only [replaceIn] at h
    split at h
    · cases h
      exact ⟨rfl, rfl, fun _ => rfl⟩
    · obtain ⟨outer, houter, rfl⟩ := Option.map_eq_some_iff.mp h
      obtain ⟨hsizes, hparent, hlinks⟩ := ih houter
      refine ⟨?_, ?_, ?_⟩
      · simp only [List.map_cons, Outline.sizes, hsizes]
      · simp only [List.map_cons, Outline.parentOf, hsizes]
      · intro last
        simp only [List.map_cons, Frame.outline, Outline.chainLinks, hsizes, hparent, hlinks]

theorem links_update {s s' : Scopes} {name : String} {symbol : Symbol} {category : Option Category}
    (h : s.update name symbol category = .ok s') : s'.links = s.links := by
  simp only [update] at h
  split at h
  · next fs hfs =>
    cases h
    obtain ⟨-, hparent, hlinks⟩ := replaceIn_links hfs
    rw [links_eq, links_eq]
    cases fs with
    | nil => rfl
    | cons f outer =>
      have hhere : Outline.sizes (outer.map Frame.outline) = Outline.sizes (s.outer.map Frame.outline) :=
        Option.some.inj hparent
      have hscopes := hlinks []
      simp only [chain, List.map_cons] at hscopes
      simp only [Sketch.links, Sketch.here, sketch, withChain, hscopes, hhere]
  · cases h

end Scopes

end CompiScript
