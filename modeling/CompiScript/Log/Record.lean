namespace CompiScript.Log

inductive Level where
  | debug | info | success | warning | error | critical
deriving DecidableEq, Repr

namespace Level

def number : Level → Nat
  | debug => 10
  | info => 20
  | success => 25
  | warning => 30
  | error => 40
  | critical => 50

def name : Level → String
  | debug => "DEBUG"
  | info => "INFO"
  | success => "SUCCESS"
  | warning => "WARNING"
  | error => "ERROR"
  | critical => "CRITICAL"

def all : List Level :=
  [debug, info, success, warning, error, critical]

end Level

structure Record where
  level : Level
  message : String
deriving DecidableEq, Repr

def Record.line (r : Record) : String :=
  r.level.name ++ " - " ++ r.message ++ "\n"

structure Journal where
  lowest : Int
  latest : List Record
deriving DecidableEq, Repr

namespace Journal

def note (j : Journal) (r : Record) : Journal :=
  if j.lowest ≤ (r.level.number : Int) then { j with latest := r :: j.latest } else j

def records (j : Journal) : List Record :=
  j.latest.reverse

end Journal

end CompiScript.Log
