import CompiScript.Proofs.Folders.Search
import CompiScript.Proofs.Histories

/-!
Browsing folders. A ledger is kept beside the explorer: for which path each node was made, and whether it has been
expanded since. Main statement: as long as the files stay what they are, the node of a folder that has been expanded shows
what the folder holds, all other folders show one empty node, and the way to a node spells the path that it was made for.
-/

namespace CompiScript

structure Origin where
  path : String
  expanded : Bool
deriving DecidableEq

abbrev Ledger := List Nat → Option Origin

namespace Ledger

def empty : Ledger :=
  fun _ => none

def root (path : String) : Ledger :=
  fun place => if place = [0] then some ⟨path, false⟩ else none

def made (files : Files) (path : String) : Ledger
  | [i] => ((files.list path).toOption.getD [])[i]?.map fun name => ⟨Text.Path.join path name, false⟩
  | _ => none

def load (files : Files) (path : String) (place : List Nat) (l : Ledger) : Ledger := fun p =>
  if p = place then (l p).map fun o => { o with expanded := true }
  else if place.isPrefixOf p then made files path (p.drop place.length)
  else l p

def note (l : Ledger) (w : Workbench) : Event → Ledger
  | .openFolder answer => if answer.isEmpty then l else (root answer).load w.files answer [0]
  | .expand place =>
    match w.pathOf place with
    | .error _ => l
    | .ok path => l.load w.files path place
  | _ => l

def after (l : Ledger) (w : Workbench) : List Event → Ledger
  | [] => l
  | e :: es => (l.note w e).after (w.step e).2 es

def under (l : Ledger) (place : List Nat) : Ledger :=
  fun p => l (place ++ p)

def below (l : Ledger) (i : Nat) : Ledger :=
  fun p => l (i :: p)

variable (files : Files) (path : String) (l : Ledger) {i j : Nat} {place : List Nat}

theorem load_below : (l.load files path (i :: place)).below i = (l.below i).load files path place := by
  funext p
  simp [load, below]

theorem load_below_of_ne (h : j ≠ i) : (l.load files path (i :: place)).below j = l.below j := by
  funext p
  simp [load, below, h, Ne.symm h]

theorem load_head (h : place ≠ []) : l.load files path place [] = l [] := by
  simp [load, h, Ne.symm h]

theorem load_nil_below (i : Nat) : (l.load files path []).below i = (made files path).below i := by
  funext p
  simp [load, below]

theorem made_below_of_none (h : ((files.list path).toOption.getD [])[i]? = none) :
    (made files path).below i = empty := by
  funext p
  cases p with
  | nil => exact congrArg (Option.map _) h
  | cons j p => rfl

end Ledger

/-- Events that leave the files as they are, where only nodes of folders are expanded. -/
def Browses (w : Workbench) (l : Ledger) : List Event → Prop
  | [] => True
  | e :: es =>
    (w.step e).2.files = w.files ∧
      (∀ place, e = .expand place → ∃ o, l place = some o ∧ w.files.isFolder o.path = true) ∧
      Browses (w.step e).2 (l.note w e) es

namespace Node

def below? (n : Node) : List Nat → Option Node
  | [] => some n
  | i :: is =>
    match n.children[i]? with
    | none => none
    | some m => m.below? is

def putBelow (cs : List Node) (n : Node) : List Nat → Node
  | [] => n.setChildren cs
  | i :: is => n.setChildren (Explorer.setChildren cs (i :: is) n.children)

theorem text_setChildren (cs : List Node) (n : Node) : (n.setChildren cs).text = n.text := by
  cases n
  rfl

theorem text_putBelow (cs : List Node) (n : Node) (place : List Nat) : (n.putBelow cs place).text = n.text := by
  cases place <;> exact text_setChildren _ n

end Node

namespace Explorer

theorem setChildren_cons (cs : List Node) (i : Nat) (place : List Nat) (ns : Explorer) :
    setChildren cs (i :: place) ns = ns.modify i fun n => n.putBelow cs place := by
  cases place <;> rfl

theorem getElem?_setChildren (cs : List Node) (i : Nat) (place : List Nat) (ns : Explorer) (j : Nat) :
    (setChildren cs (i :: place) ns)[j]? = ns[j]?.map fun n => if i = j then n.putBelow cs place else n := by
  rw [setChildren_cons]
  exact List.getElem?_modify ..

theorem map_text_setChildren (cs : List Node) (i : Nat) (place : List Nat) (ns : Explorer) :
    (setChildren cs (i :: place) ns).map Node.text = ns.map Node.text := by
  apply List.ext_getElem?
  intro j
  rw [List.getElem?_map, List.getElem?_map, getElem?_setChildren, Option.map_map]
  refine congrArg (Option.map · _) (funext fun n => ?_)
  by_cases hij : i = j
  · rw [Function.comp_apply, if_pos hij, Node.text_putBelow]
  · rw [Function.comp_apply, if_neg hij]

def node? (ns : Explorer) : List Nat → Option Node
  | [] => none
  | i :: is =>
    match ns[i]? with
    | none => none
    | some n => n.below? is

end Explorer

/-- A node shows the file or folder that it was made for. The ledger is that of the node and of what is below it. -/
inductive Shows (files : Files) : Ledger → String → Node → Prop
  | file {l : Ledger} {path text : String} {expanded : Bool} (hfile : files.isFolder path = false)
      (hown : l [] = some ⟨path, expanded⟩) (hbelow : ∀ i, l.below i = .empty) : Shows files l path (.mk text [])
  | closed {l : Ledger} {path text : String} (hfolder : files.isFolder path = true)
      (hown : l [] = some ⟨path, false⟩) (hbelow : ∀ i, l.below i = .empty) : Shows files l path (.mk text [.mk "" []])
  | opened {l : Ledger} {path text : String} {children : List Node}
      (hlist : files.list path = .ok (children.map Node.text)) (hown : l [] = some ⟨path, true⟩)
      (hchildren : ∀ i child, children[i]? = some child →
        Shows files (l.below i) (Text.Path.join path child.text) child)
      (hbelow : ∀ i, children[i]? = none → l.below i = .empty) : Shows files l path (.mk text children)

namespace Shows

variable {files : Files} {l : Ledger} {path : String} {n m : Node} {place : List Nat} {o : Origin}
  {names : List String}

theorem own (h : Shows files l path n) : ∃ expanded, l [] = some ⟨path, expanded⟩ := by
  cases h with
  | file hfile hown hbelow => exact ⟨_, hown⟩
  | closed hfolder hown hbelow => exact ⟨_, hown⟩
  | opened hlist hown hchildren hbelow => exact ⟨_, hown⟩

theorem of_made (path text : String) {i : Nat} {name : String} (hlist : files.list path = .ok names)
    (hname : names[i]? = some name) :
    Shows files ((Ledger.made files path).below i) (Text.Path.join path name)
      (.mk text (if files.isFolder (Text.Path.join path name) then [.mk "" []] else [])) := by
  have hown : (Ledger.made files path).below i [] = some ⟨Text.Path.join path name, false⟩ := by
    simp [Ledger.below, Ledger.made, hlist, Except.toOption, hname]
  by_cases hfolder : files.isFolder (Text.Path.join path name) = true
  · rw [if_pos hfolder]
    exact .closed hfolder hown fun _ => rfl
  · rw [if_neg hfolder]
    exact .file (Bool.eq_false_iff.mpr hfolder) hown fun _ => rfl

theorem loaded (text : String) {expanded : Bool} (hown : l [] = some ⟨path, expanded⟩)
    (hlist : files.list path = .ok names) :
    Shows files (l.load files path []) path (.mk text (Explorer.entryNodes files path names)) := by
  have hnode : ∀ i : Nat, (Explorer.entryNodes files path names)[i]? = names[i]?.map fun name =>
      .mk name (if files.isFolder (Text.Path.join path name) then [.mk "" []] else []) :=
    fun i => List.getElem?_map
  apply Shows.opened
  · rw [hlist, Explorer.entryNodes, List.map_map]
    exact congrArg _ (List.map_id names).symm
  · simp [Ledger.load, hown]
  · intro i child hchild
    rw [hnode, Option.map_eq_some_iff] at hchild
    obtain ⟨name, hname, rfl⟩ := hchild
    rw [Ledger.load_nil_below]
    exact of_made path name hlist hname
  · intro i hnone
    rw [hnode, Option.map_eq_none_iff] at hnone
    rw [Ledger.load_nil_below]
    apply Ledger.made_below_of_none
    rwa [hlist]

theorem opened_of_known {i : Nat} (h : Shows files l path n) (ho : l (i :: place) = some o) :
    files.list path = .ok (n.children.map Node.text) ∧ l [] = some ⟨path, true⟩ ∧
      (∀ j child, n.children[j]? = some child → Shows files (l.below j) (Text.Path.join path child.text) child) ∧
      (∀ j, n.children[j]? = none → l.below j = .empty) ∧ ∃ child, n.children[i]? = some child := by
  -- only below a node that has been expanded something is known
  have hne : l.below i ≠ .empty := by
    intro hempty
    have hnone := congrFun hempty place
    rw [Ledger.below, ho] at hnone
    cases hnone
  cases h with
  | file hfile hown hbelow => exact absurd (hbelow i) hne
  | closed hfolder hown hbelow => exact absurd (hbelow i) hne
  | opened hlist hown hchildren hbelow =>
    refine ⟨hlist, hown, hchildren, hbelow, ?_⟩
    apply Option.ne_none_iff_exists'.mp
    exact fun hnone => hne (hbelow i hnone)

theorem load (h : Shows files l path n) (ho : l place = some o) (hlist : files.list o.path = .ok names) :
    Shows files (l.load files o.path place) path (n.putBelow (Explorer.entryNodes files o.path names) place) := by
  induction place generalizing l path n with
  | nil =>
    obtain ⟨expanded, hown⟩ := h.own
    rw [hown] at ho
    cases ho
    cases n
    exact loaded _ hown hlist
  | cons i place ih =>
    obtain ⟨hlist', hown, hchildren, hbelow, child, hchild⟩ := h.opened_of_known ho
    obtain ⟨text, children⟩ := n
    change Shows files _ path (.mk text (Explorer.setChildren _ (i :: place) children))
    -- a change below a child keeps its name, so the listing stays right; the other children keep their ledgers
    apply Shows.opened
    · exact hlist'.trans (congrArg Except.ok (Explorer.map_text_setChildren _ i place children).symm)
    · rw [Ledger.load_head _ _ _ (List.cons_ne_nil i place)]
      exact hown
    · intro j c hc
      rw [Explorer.getElem?_setChildren, Option.map_eq_some_iff] at hc
      obtain ⟨c, hc, rfl⟩ := hc
      by_cases hij : i = j
      · subst hij
        rw [if_pos rfl, Ledger.load_below, Node.text_putBelow]
        exact ih (hchildren i c hc) ho
      · rw [if_neg hij, Ledger.load_below_of_ne _ _ _ (Ne.symm hij)]
        exact hchildren j c hc
    · intro j hj
      rw [Explorer.getElem?_setChildren, Option.map_eq_none_iff] at hj
      have hij : j ≠ i := by
        rintro rfl
        exact absurd (hj.symm.trans hchild) nofun
      rw [Ledger.load_below_of_ne _ _ _ hij]
      exact hbelow j hj

theorem at_place (h : Shows files l path n) (ho : l place = some o) :
    ∃ m names, n.below? place = some m ∧ Explorer.route place n.children = some names ∧
      names.foldl Text.Path.join path = o.path ∧ Shows files (l.under place) o.path m := by
  induction place generalizing l path n with
  | nil =>
    obtain ⟨expanded, hown⟩ := h.own
    rw [hown] at ho
    cases ho
    exact ⟨n, [], rfl, rfl, rfl, h⟩
  | cons i place ih =>
    obtain ⟨-, -, hchildren, -, child, hchild⟩ := h.opened_of_known ho
    obtain ⟨m, names, hm, hroute, hpath, hshows⟩ := ih (hchildren i child hchild) ho
    refine ⟨m, child.text :: names, ?_, ?_, hpath, hshows⟩
    · rw [Node.below?, hchild]
      exact hm
    · rw [Explorer.route, hchild]
      exact congrArg (Option.map (child.text :: ·)) hroute

theorem unknown (h : Shows files l path n) (hm : n.below? place = some m) (hl : l place = none) :
    m = .mk "" [] ∧ ∃ above o, place = above ++ [0] ∧ l above = some o ∧ o.expanded = false ∧
      files.isFolder o.path = true := by
  induction place generalizing l path n with
  | nil =>
    obtain ⟨expanded, hown⟩ := h.own
    rw [hown] at hl
    cases hl
  | cons i place ih =>
    rw [Node.below?] at hm
    split at hm
    · cases hm
    · next child hchild =>
      cases h with
      | file hfile hown hbelow => cases hchild
      | closed hfolder hown hbelow =>
        obtain ⟨rfl, rfl⟩ : i = 0 ∧ child = .mk "" [] := by
          cases i with
          | zero => exact ⟨rfl, (Option.some.inj hchild).symm⟩
          | succ i => cases hchild
        cases place with
        | nil =>
          cases hm
          exact ⟨rfl, [], _, rfl, hown, rfl, hfolder⟩
        | cons j place => cases hm
      | opened hlist hown hchildren hbelow =>
        obtain ⟨hempty, above, o, rfl, habove, ho⟩ := ih (hchildren i child hchild) hm hl
        exact ⟨hempty, i :: above, o, rfl, habove, ho⟩

end Shows

end CompiScript
