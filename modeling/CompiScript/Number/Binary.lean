import CompiScript.Number.Ratio

/-!
Numbers with at most 53 binary digits, and the nearest such number to a ratio. The powers of two are
bounded: below the least one digits are lost, above the greatest one there is no number.
-/

namespace CompiScript

structure Binary where
  mantissa : Nat
  power : Int
deriving DecidableEq, Repr

namespace Binary

def leastPower : Int :=
  -1074

def greatestPower : Int :=
  971

def ratio (b : Binary) : Ratio :=
  (Ratio.ofNat b.mantissa).scale 2 b.power

def carried (mantissa : Nat) (power : Int) : Binary :=
  if mantissa = Nat.pow 2 53 then ⟨Nat.pow 2 52, power + 1⟩ else ⟨mantissa, power⟩

def nearest? (r : Ratio) : Option Binary :=
  if r.num = 0 then some ⟨0, leastPower⟩
  else
    let power := max (r.magnitude 2 - 52) leastPower
    let b := carried (r.scale 2 (-power)).nearest power
    if greatestPower < b.power then none else some b

end Binary

end CompiScript
