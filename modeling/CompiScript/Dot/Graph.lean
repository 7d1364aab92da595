import CompiScript.Dot.Quote
import CompiScript.Tree.Basic

namespace CompiScript.Dot

structure Graph where
  count : Nat
  lines : List String
deriving Repr, DecidableEq

namespace Graph

def empty : Graph :=
  ⟨0, []⟩

def body (g : Graph) : List String :=
  g.lines.reverse

def nodeName (n : Nat) : String :=
  "node" ++ toString n

def nodeLine (name label : String) : String :=
  "\t" ++ quote name ++ " [label=" ++ quote label ++ "]\n"

def edgeLine (parent child : String) : String :=
  "\t" ++ quoteEnd parent ++ " -> " ++ quoteEnd child ++ "\n"

def addNode (g : Graph) (label : String) : Graph :=
  ⟨g.count + 1, nodeLine (nodeName g.count) label :: g.lines⟩

def addEdge (g : Graph) (parent child : String) : Graph :=
  { g with lines := edgeLine parent child :: g.lines }

def addChild (g : Graph) (parent : Option String) (label : String) : Graph :=
  match parent with
  | none => g.addNode label
  | some p => (g.addNode label).addEdge p (nodeName g.count)

def source (g : Graph) : String :=
  "// Parse Tree\ndigraph \x7b\n" ++ String.join g.body ++ "\x7d\n"

end Graph

def label : Tree → String
  | .leaf x => x.text
  | .node _ [] => ""
  | .node r (_ :: _) => r.label

mutual

def Graph.addTree (g : Graph) (parent : Option String) : Tree → Graph
  | .leaf x => g.addChild parent (label (.leaf x))
  | .node r cs =>
    Graph.addTrees (g.addChild parent (label (.node r cs))) (Graph.nodeName g.count) cs

def Graph.addTrees (g : Graph) (parent : String) : List Tree → Graph
  | [] => g
  | t :: ts => Graph.addTrees (g.addTree (some parent) t) parent ts

end

def Graph.visit (g : Graph) (parent : Option String) (t : Tree) : String × Graph :=
  (Graph.nodeName g.count, g.addTree parent t)

end CompiScript.Dot
