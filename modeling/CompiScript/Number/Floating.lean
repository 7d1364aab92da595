import CompiScript.Number.Written

namespace CompiScript

inductive Floating where
  | finite (negative : Bool) (value : Binary)
  | infinite (negative : Bool)
  | undefined
deriving DecidableEq, Repr

namespace Floating

def ofDecimal (negative : Bool) (d : Decimal) : Floating :=
  let first : Int := (Ratio.size 10 d.digits : Int) + d.power
  if d.digits = 0 || first < -400 then finite negative ⟨0, Binary.leastPower⟩
  else if 400 < first then infinite negative
  else
    match Binary.nearest? d.ratio with
    | some b => finite negative b
    | none => infinite negative

def ofInt? (n : Int) : Option Floating :=
  (Binary.nearest? (Ratio.ofNat n.natAbs)).map (finite (n < 0))

def isNegative : Floating → Bool
  | finite s _ => s
  | infinite s => s
  | undefined => false

def unsigned (write : Binary → List Char) : Floating → List Char
  | finite _ b => write b
  | infinite _ => ['i', 'n', 'f']
  | undefined => ['n', 'a', 'n']

def text (x : Floating) : String :=
  String.ofList ((if x.isNegative then ['-'] else []) ++ x.unsigned Written.shortest)

end Floating

end CompiScript
