namespace CompiScript

structure Ratio where
  num : Nat
  den : Nat
deriving DecidableEq, Repr

namespace Ratio

def ofNat (n : Nat) : Ratio :=
  ⟨n, 1⟩

def scale (r : Ratio) (base : Nat) (power : Int) : Ratio :=
  ⟨r.num * Nat.pow base power.toNat, r.den * Nat.pow base (-power).toNat⟩

def floor (r : Ratio) : Nat :=
  r.num / r.den

def nearest (r : Ratio) : Nat :=
  let rest := r.num % r.den
  if r.den < 2 * rest || (2 * rest = r.den && r.floor % 2 = 1) then r.floor + 1 else r.floor

def size (base n : Nat) : Nat :=
  (Nat.toDigits base n).length

/-- The power of the base at the first digit of a ratio that is not zero. The numbers of digits of
its two parts leave two powers to choose from. -/
def magnitude (r : Ratio) (base : Nat) : Int :=
  let power : Int := (size base r.num : Int) - size base r.den
  if (r.scale base (-power)).floor = 0 then power - 1 else power

def leading (r : Ratio) (count : Nat) : Nat × Int :=
  if r.num = 0 then (0, 0)
  else
    let power := r.magnitude 10
    let digits := (r.scale 10 ((count : Int) - 1 - power)).nearest
    if digits = Nat.pow 10 count then (Nat.pow 10 (count - 1), power + 1) else (digits, power)

end Ratio

end CompiScript
