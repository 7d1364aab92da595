import CompiScript.Proofs.Quoting
import CompiScript.Proofs.Reading.Expressions
import CompiScript.Proofs.Segments
import CompiScript.Proofs.Sentences

namespace CompiScript

namespace Tree

def caption : Tree → String
  | leaf x => x.text
  | node r _ => r.label

mutual

def pairs (k : Nat) : Tree → List (Nat × Nat)
  | leaf _ => []
  | node _ cs => pairsAll k (k + 1) cs

def pairsAll (parent next : Nat) : List Tree → List (Nat × Nat)
  | [] => []
  | t :: ts => (parent, next) :: (t.pairs next ++ pairsAll parent (next + t.subtrees.length) ts)

end

theorem mem_subtrees_self (t : Tree) : t ∈ t.subtrees := by
  cases t <;> exact .head _

end Tree

inductive Labelled where
  | node (label : String) (children : List Labelled)

mutual

def Tree.labelled : Tree → Labelled
  | .leaf x => .node x.text []
  | .node r cs => .node r.label (Tree.labelledAll cs)

def Tree.labelledAll : List Tree → List Labelled
  | [] => []
  | t :: ts => t.labelled :: Tree.labelledAll ts

end

theorem Tree.labelled_eq (t : Tree) : t.labelled = .node t.caption (Tree.labelledAll t.children) := by
  cases t <;> rfl

namespace Dot

open Dot.Graph

inductive Item where
  | node (name label : String)
  | edge (parent child : String)

namespace Item

def line : Item → String
  | node name label => nodeLine name label
  | edge parent child => edgeLine parent child

def node? : Item → Option (String × String)
  | node name label => some (name, label)
  | edge _ _ => none

def edge? : Item → Option (String × String)
  | node _ _ => none
  | edge parent child => some (parent, child)

def ofLine (line : String) : Option Item :=
  match line.toList with
  | '\t' :: cs =>
    let name := String.ofList (cs.takeWhile (· ≠ ' '))
    match cs.dropWhile (· ≠ ' ') with
    | ' ' :: '[' :: 'l' :: 'a' :: 'b' :: 'e' :: 'l' :: '=' :: rest =>
      some (node name (String.ofList (unquote rest.dropLast.dropLast)))
    | ' ' :: '-' :: '>' :: ' ' :: rest => some (edge name (String.ofList rest.dropLast))
    | _ => none
  | _ => none

end Item

def readBelow : Nat → String → List Item → List Labelled × List Item
  | fuel + 1, parent, .node name label :: .edge source target :: rest =>
    if source = parent then
      let (children, rest) := readBelow fuel name rest
      let (siblings, rest) := readBelow fuel parent rest
      (.node label children :: siblings, rest)
    else ([], .node name label :: .edge source target :: rest)
  | _, _, items => ([], items)

def recover (lines : List String) : Option Labelled := do
  match ← lines.mapM Item.ofLine with
  | .node name label :: rest =>
    match readBelow rest.length name rest with
    | (children, []) => some (.node label children)
    | _ => none
  | _ => none

section Lines

theorem span_name (n : Nat) (cs : List Char) :
    ((nodeName n).toList ++ ' ' :: cs).takeWhile (· ≠ ' ') = (nodeName n).toList ∧
      ((nodeName n).toList ++ ' ' :: cs).dropWhile (· ≠ ' ') = ' ' :: cs := by
  have hname : ∀ c ∈ (nodeName n).toList, decide (c ≠ ' ') = true := by
    intro c hc
    refine decide_eq_true ?_
    rintro rfl
    exact notMem_nodeName (by decide) hc
  constructor
  · rw [List.takeWhile_append_of_pos hname]
    simp
  · rw [List.dropWhile_append_of_pos hname]
    simp

theorem ofLine_node (n : Nat) {label : String} (h : '\\' ∉ label.toList) :
    Item.ofLine (nodeLine (nodeName n) label) = some (.node (nodeName n) label) := by
  have hline : (nodeLine (nodeName n) label).toList = '\t' :: ((nodeName n).toList ++
      ' ' :: '[' :: 'l' :: 'a' :: 'b' :: 'e' :: 'l' :: '=' :: ((quote label).toList ++ [']', '\n'])) := by
    simp [nodeLine, quote_nodeName]
  have hlast : ((quote label).toList ++ [']', '\n']).dropLast.dropLast = (quote label).toList := by
    rw [List.append_cons, List.dropLast_concat, List.dropLast_concat]
  rw [Item.ofLine, hline]
  simp only [(span_name n _).1, (span_name n _).2, hlast, unquote_quote h, String.ofList_toList]

theorem ofLine_edge (m n : Nat) :
    Item.ofLine (edgeLine (nodeName m) (nodeName n)) = some (.edge (nodeName m) (nodeName n)) := by
  have hline : (edgeLine (nodeName m) (nodeName n)).toList =
      '\t' :: ((nodeName m).toList ++ ' ' :: '-' :: '>' :: ' ' :: ((nodeName n).toList ++ ['\n'])) := by
    simp [edgeLine, quoteEnd_nodeName]
  rw [Item.ofLine, hline]
  simp only [(span_name m _).1, (span_name m _).2, List.dropLast_concat, String.ofList_toList]

end Lines

section Items

mutual

def below (k : Nat) : Tree → List Item
  | .leaf _ => []
  | .node _ cs => belowAll k (k + 1) cs

def belowAll (parent next : Nat) : List Tree → List Item
  | [] => []
  | t :: ts =>
    .node (nodeName next) (label t) :: .edge (nodeName parent) (nodeName next) ::
      (below next t ++ belowAll parent (next + t.subtrees.length) ts)

end

def items (k : Nat) (t : Tree) : List Item :=
  .node (nodeName k) (label t) :: below k t

theorem count_addChild (g : Graph) (parent : Option String) (text : String) :
    (g.addChild parent text).count = g.count + 1 := by
  cases parent <;> rfl

mutual

theorem count_addTree (g : Graph) (parent : Option String) (t : Tree) :
    (g.addTree parent t).count = g.count + t.subtrees.length := by
  cases t with
  | leaf x => exact count_addChild g parent _
  | node r cs =>
    rw [addTree, count_addTrees, count_addChild, Tree.subtrees, List.length_cons]
    omega

theorem count_addTrees (g : Graph) (parent : String) (ts : List Tree) :
    (g.addTrees parent ts).count = g.count + (Tree.subtreesAll ts).length := by
  cases ts with
  | nil => rfl
  | cons t ts =>
    rw [addTrees, count_addTrees, count_addTree, Tree.subtreesAll, List.length_append]
    omega

end

theorem body_addNode (g : Graph) (text : String) :
    (g.addNode text).body = g.body ++ [nodeLine (nodeName g.count) text] := by
  simp [body, addNode]

theorem body_addEdge (g : Graph) (parent child : String) :
    (g.addEdge parent child).body = g.body ++ [edgeLine parent child] := by
  simp [body, addEdge]

mutual

theorem body_addTree (g : Graph) (parent : Option Nat) (t : Tree) :
    (g.addTree (parent.map nodeName) t).body = (g.addChild (parent.map nodeName) (label t)).body ++
      (below g.count t).map Item.line := by
  cases t with
  | leaf x => simp [addTree, below]
  | node r cs => rw [addTree, body_addTrees, count_addChild, below]

theorem body_addTrees (g : Graph) (parent : Nat) (ts : List Tree) :
    (g.addTrees (nodeName parent) ts).body = g.body ++ (belowAll parent g.count ts).map Item.line := by
  cases ts with
  | nil => simp [addTrees, belowAll]
  | cons t ts =>
    have hchild : (g.addChild (some (nodeName parent)) (label t)).body = g.body ++
        [nodeLine (nodeName g.count) (label t), edgeLine (nodeName parent) (nodeName g.count)] := by
      rw [addChild, body_addEdge, body_addNode, List.append_assoc]
      rfl
    have hfirst := body_addTree g (some parent) t
    rw [Option.map_some] at hfirst
    rw [addTrees, body_addTrees, count_addTree, hfirst, hchild]
    simp [belowAll, Item.line]

end

theorem body_visit (g : Graph) (t : Tree) : (g.visit none t).2.body = g.body ++ (items g.count t).map Item.line := by
  have htree := body_addTree g none t
  rw [Option.map_none, addChild, body_addNode] at htree
  rw [visit, htree]
  simp [items, Item.line]

mutual

theorem node?_items (k : Nat) (t : Tree) : (items k t).filterMap Item.node? =
    (t.subtrees.zipIdx k).map fun s => (nodeName s.2, label s.1) := by
  cases t with
  | leaf x => rfl
  | node r cs =>
    simp only [items, below, List.filterMap_cons, Item.node?, node?_belowAll, Tree.subtrees, List.zipIdx_cons,
      List.map_cons]

theorem node?_belowAll (parent next : Nat) (ts : List Tree) : (belowAll parent next ts).filterMap Item.node? =
    ((Tree.subtreesAll ts).zipIdx next).map fun s => (nodeName s.2, label s.1) := by
  cases ts with
  | nil => rfl
  | cons t ts =>
    have hsplit : (belowAll parent next (t :: ts)).filterMap Item.node? = (items next t).filterMap Item.node? ++
        (belowAll parent (next + t.subtrees.length) ts).filterMap Item.node? := by
      simp only [belowAll, items, List.filterMap_cons, Item.node?, List.filterMap_append, List.cons_append]
    rw [hsplit, node?_items, node?_belowAll, Tree.subtreesAll, List.zipIdx_append, List.map_append]

end

mutual

theorem edge?_below (k : Nat) (t : Tree) : (below k t).filterMap Item.edge? =
    (t.pairs k).map fun e => (nodeName e.1, nodeName e.2) := by
  cases t with
  | leaf x => rfl
  | node r cs => exact edge?_belowAll k (k + 1) cs

theorem edge?_belowAll (parent next : Nat) (ts : List Tree) : (belowAll parent next ts).filterMap Item.edge? =
    (Tree.pairsAll parent next ts).map fun e => (nodeName e.1, nodeName e.2) := by
  cases ts with
  | nil => rfl
  | cons t ts =>
    simp only [belowAll, Tree.pairsAll, List.filterMap_cons, Item.edge?, List.filterMap_append, List.map_cons,
      List.map_append, edge?_below, edge?_belowAll]

end

theorem edge?_items (k : Nat) (t : Tree) : (items k t).filterMap Item.edge? =
    (t.pairs k).map fun e => (nodeName e.1, nodeName e.2) :=
  edge?_below k t

end Items

end Dot

end CompiScript
