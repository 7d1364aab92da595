import CompiScript.Grammar.Basic
import CompiScript.Tree.Basic

namespace CompiScript

inductive Part where
  | rule (name : Rule)
  | kind (kind : Kind)
deriving DecidableEq, Repr

namespace Part

def name : Part → String
  | rule r => r.name
  | kind .eof => "EOF"
  | kind k => k.displayName

def all : List Part :=
  Rule.all.map rule ++ [kind .eof, kind .number, kind .string, kind .identifier]

def isMention (p : Part) (form : Phrase) : Bool :=
  match p, form with
  | rule r, .rule s => r = s
  | kind k, .token t => k = t
  | _, _ => false

def isPart (p : Part) (t : Tree) : Bool :=
  match p with
  | rule r => t.isRule r
  | kind k => t.isKind k

end Part

inductive PartValue where
  | single (child : Option Tree)
  | list (children : List Tree)

namespace Tree

def ofRule (r : Rule) (cs : List Tree) : List Tree :=
  cs.filter (isRule r)

def ofKind (k : Kind) (cs : List Tree) : List Tree :=
  cs.filter (isKind k)

def parts (r : Rule) (cs : List Tree) : List (Part × PartValue) :=
  Part.all.filterMap fun p =>
    match r.phrase.count p.isMention with
    | .never => none
    | .once => some (p, .single (cs.find? p.isPart))
    | .several => some (p, .list (cs.filter p.isPart))

def partsOf (r : Rule) (t : Tree) : List (List (Part × PartValue)) :=
  t.subtrees.filterMap fun s =>
    match s with
    | leaf _ => none
    | node q cs => if q = r then some (parts r cs) else none

end Tree

end CompiScript
