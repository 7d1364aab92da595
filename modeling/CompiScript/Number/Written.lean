import CompiScript.Number.Shortest

namespace CompiScript.Written

def fraction (point : Bool) (digits : List Char) : List Char :=
  if digits.isEmpty && !point then [] else '.' :: digits

def zeros (n : Nat) : List Char :=
  List.replicate n '0'

def filled (width n : Nat) : List Char :=
  let digits := Nat.toDigits 10 n
  zeros (width - digits.length) ++ digits

def dropZeros (cs : List Char) : List Char :=
  (cs.reverse.dropWhile (· = '0')).reverse

def split (places n : Nat) : List Char × List Char :=
  let digits := filled (places + 1) n
  (digits.take (digits.length - places), digits.drop (digits.length - places))

def fixed (point : Bool) (places : Nat) (r : Ratio) : List Char :=
  let (whole, rest) := split places (r.scale 10 places).nearest
  whole ++ fraction point rest

def exponent (power : Int) : List Char :=
  'e' :: (if power < 0 then '-' else '+') :: filled 2 power.natAbs

def scientific (point : Bool) (places : Nat) (r : Ratio) : List Char :=
  let (digits, power) := r.leading (places + 1)
  let (whole, rest) := split places digits
  whole ++ fraction point rest ++ exponent power

def general (point : Bool) (precision : Nat) (r : Ratio) : List Char :=
  let count := max 1 precision
  let (digits, power) := r.leading count
  let trim := fun cs => if point then cs else dropZeros cs
  if -4 ≤ power && power < count then
    let (whole, rest) := split ((count : Int) - 1 - power).toNat digits
    whole ++ fraction point (trim rest)
  else
    let (whole, rest) := split (count - 1) digits
    whole ++ fraction point (trim rest) ++ exponent power

def shortest (b : Binary) : List Char :=
  let d := b.shortest
  let all := Nat.toDigits 10 d.digits
  let digits := all.take 1 ++ dropZeros (all.drop 1)
  let before : Int := all.length + d.power
  if before ≤ -4 || 16 < before then
    digits.take 1 ++ fraction false (digits.drop 1) ++ exponent (before - 1)
  else if before ≤ 0 then
    '0' :: '.' :: zeros (-before).toNat ++ digits
  else
    let whole := digits.take before.toNat
    let rest := digits.drop before.toNat
    whole ++ zeros (before.toNat - whole.length) ++ '.' :: (if rest.isEmpty then ['0'] else rest)

end CompiScript.Written
