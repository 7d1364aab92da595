import CompiScript.Number.Binary

namespace CompiScript

structure Decimal where
  digits : Nat
  power : Int
deriving DecidableEq, Repr

def Decimal.ratio (d : Decimal) : Ratio :=
  (Ratio.ofNat d.digits).scale 10 d.power

namespace Binary

def isRead (b : Binary) (d : Decimal) : Bool :=
  nearest? d.ratio = some b

def decimal? (b : Binary) (count : Nat) : Option Decimal :=
  let power := b.ratio.magnitude 10 - count + 1
  let scaled := b.ratio.scale 10 (-power)
  let below : Decimal := ⟨scaled.floor, power⟩
  let above : Decimal := ⟨scaled.floor + 1, power⟩
  match b.isRead below, b.isRead above with
  | true, true => some ⟨scaled.nearest, power⟩
  | true, false => some below
  | false, true => some above
  | false, false => none

def shortest (b : Binary) : Decimal :=
  if b.mantissa = 0 then ⟨0, 0⟩
  else
    match (List.range' 1 17).findSome? b.decimal? with
    | some d => d
    | none => ⟨b.ratio.num * Nat.pow 5 (-b.power).toNat, min b.power 0⟩

end Binary

end CompiScript
